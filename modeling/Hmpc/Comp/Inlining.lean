/-
# Hmpc.Comp.Inlining -- how often inlined expressions are evaluated

A kernel evaluates an expression from a tensor of its own down to the tensors that it reads. What is
cacheable and not in the plan is evaluated on the way. There is a single route to it, without a
multiple access, so that each of its elements is evaluated as often as the steps of this route
repeat: `covers_queueEvaluations`. A step repeats an element in two cases, and `inlinedOnce_iff`
says that nothing else goes wrong.
-/
import Hmpc.Comp.Plan
import Hmpc.Expr.Evaluations

namespace Hmpc.Comp

open Hmpc.Expr Hmpc.Expr.Expression Hmpc.Expr.Detail Hmpc.Lib Hmpc.Lib.Loops

/-! ## Routes -/

section Routes

variable {E : Type} [DecidableEq E] [Expression E]

/-- A way down that meets nothing with a tensor. -/
inductive Route (cache : List E) : E → Trace E → E → Prop
  | here (e : E) : Route cache e [] e
  | step {e y : E} {trace : Trace E} (i : Fin (arity e)) (h : get e i ∉ cache)
      (route : Route cache (get e i) trace y) : Route cache e (⟨e, access e i, i⟩ :: trace) y

variable {cache : List E} {e p q y : E} {trace : Trace E}

omit [DecidableEq E] in
theorem Route.partOf (h : Route cache e trace y) : PartOf y e := by
  induction h with
  | here e => exact PartOf.refl e
  | step i _ _ ih => exact ih.inside.partOf

omit [DecidableEq E] [Expression E] in
theorem isNotMultipleAccess_cons {triple : Triple E} :
    isNotMultipleAccess (triple :: trace) = true ↔
      triple.pattern ≠ Pattern.multiple ∧ isNotMultipleAccess trace = true := by
  unfold isNotMultipleAccess
  rw [List.all_cons, Bool.and_eq_true, decide_eq_true_eq]

omit [DecidableEq E] in
/-- Only a route without a step ends at something with a tensor. -/
theorem Route.eq_nil (h : Route cache e trace y) (hy : y ∈ cache) : trace = [] ∧ y = e := by
  induction h with
  | here => exact ⟨rfl, rfl⟩
  | step i h _ ih =>
      obtain ⟨-, rfl⟩ := ih hy
      exact absurd hy h

omit [DecidableEq E] in
/-- The last cacheable expression on a route, before its end. -/
theorem Route.down_or_split (h : Route cache e trace y) (hy : isCacheable y = true) :
    Down e trace y ∨ ∃ p before i rest, Route cache e before p ∧ isCacheable p = true ∧
      Down (get p i) rest y ∧ trace = before ++ ⟨p, access p i, i⟩ :: rest := by
  induction h with
  | here => exact Or.inl (Down.here hy)
  | @step e y trace i hget _ ih =>
      rcases ih hy with hdown | ⟨p, before, k, rest, hroute, hp, hdown, rfl⟩
      · by_cases he : isCacheable e = true
        · exact Or.inr ⟨e, [], i, trace, Route.here e, he, hdown, rfl⟩
        · exact Or.inl (Down.step (by simpa using he) i hdown)
      · exact Or.inr ⟨p, _, k, rest, Route.step i hget hroute, hp, hdown, rfl⟩

omit [DecidableEq E] in
theorem Route.split (h : Route cache e trace y) (hy : isCacheable y = true)
    (he : isCacheable e = true) (hne : trace ≠ []) :
    ∃ p before i rest, Route cache e before p ∧ isCacheable p = true ∧
      Down (get p i) rest y ∧ trace = before ++ ⟨p, access p i, i⟩ :: rest := by
  rcases h.down_or_split hy with hdown | hsplit
  · exact absurd ((down_iff_of_cacheable he).mp hdown).1 hne
  · exact hsplit

/-- A cacheable expression inside of a top-level one has a tensor or is inlined. -/
theorem inlined_of_not_mem {tops : List E} (hpart : ∃ top ∈ tops, PartOf y (Expr.cache top))
    (hy : isCacheable y = true) (hnot : y ∉ generateExecutionCache tops) : Inlined tops y := by
  obtain ⟨top, htop, hpart⟩ := hpart
  by_contra hinlined
  apply hnot
  apply mem_plan.mpr
  refine ⟨Expr.cache top, List.mem_map_of_mem htop, ?_⟩
  rcases hpart with rfl | hinside
  · exact Or.inr rfl
  · exact Or.inl ⟨hinside, hy, hinlined⟩

theorem partOf_of_mem_plan {tops : List E} (h : q ∈ generateExecutionCache tops) :
    isCacheable q = true ∧ ∃ top ∈ tops, PartOf q (Expr.cache top) := by
  obtain ⟨t, ht, hq⟩ := mem_plan.mp h
  obtain ⟨top, htop, rfl⟩ := List.mem_map.mp ht
  rcases hq with ⟨hinside, hcacheable, -⟩ | rfl
  · exact ⟨hcacheable, top, htop, hinside.partOf⟩
  · exact ⟨isCacheable_cache top, top, htop, PartOf.refl _⟩

/-- There is one route to an inlined expression, and no multiple access on it. The induction is on
its length: its last part is the single trace of the expression, and what comes before is the route
to a cacheable expression that has a tensor or is inlined itself. -/
theorem Route.unique {tops : List E} (hq : q ∈ generateExecutionCache tops)
    (h : Route (generateExecutionCache tops) q trace y) (hy : isCacheable y = true)
    (hnot : y ∉ generateExecutionCache tops) :
    isNotMultipleAccess trace = true ∧ ∀ q' ∈ generateExecutionCache tops, ∀ trace',
      Route (generateExecutionCache tops) q' trace' y → q' = q ∧ trace' = trace := by
  induction hlength : trace.length using Nat.strong_induction_on generalizing trace y with
  | h n ih =>
      subst hlength
      have hne {q : E} {trace : Trace E} (hq : q ∈ generateExecutionCache tops)
          (h : Route (generateExecutionCache tops) q trace y) : trace ≠ [] := by
        rintro rfl
        cases h
        exact hnot hq
      -- every route ends with the trace
      have hends {q : E} {trace : Trace E} (hq : q ∈ generateExecutionCache tops)
          (h : Route (generateExecutionCache tops) q trace y) :
          ∃ p before last, Route (generateExecutionCache tops) q before p ∧
            isCacheable p = true ∧ IsTrace tops y last ∧ last.head?.map Triple.expression = some p ∧
            trace = before ++ last := by
        obtain ⟨hcacheable, top, htop, hpart⟩ := partOf_of_mem_plan hq
        obtain ⟨p, before, i, rest, hroute, hp, hdown, rfl⟩ :=
          h.split hy hcacheable (hne hq h)
        exact ⟨p, before, _, hroute, hp,
          ⟨top, htop, p, hroute.partOf.trans hpart, hp, i, rest, hdown, rfl⟩, rfl, rfl⟩
      obtain ⟨hcacheable, top, htop, hpart⟩ := partOf_of_mem_plan hq
      obtain ⟨-, single, hsingle, hmultiple⟩ :=
        inlined_of_not_mem ⟨top, htop, h.partOf.trans hpart⟩ hy hnot
      obtain ⟨p, before, last, hroute, hp, hlast, hhead, rfl⟩ := hends hq h
      obtain rfl := (hsingle last).mp hlast
      have hshorter : before.length < (before ++ last).length := by
        have hpos : last ≠ [] := by
          rintro rfl
          cases hhead
        rw [List.length_append]
        have hlength := List.length_pos_iff.mpr hpos
        omega
      have happend : isNotMultipleAccess (before ++ last) =
          (isNotMultipleAccess before && isNotMultipleAccess last) := List.all_append
      rw [happend, hmultiple, Bool.and_true]
      have hother (q' : E) (hq' : q' ∈ generateExecutionCache tops) (trace' : Trace E)
          (h' : Route (generateExecutionCache tops) q' trace' y) :
          ∃ before', Route (generateExecutionCache tops) q' before' p ∧
            trace' = before' ++ last := by
        obtain ⟨p', before', last', hroute', -, hlast', hhead', rfl⟩ := hends hq' h'
        obtain rfl := (hsingle last').mp hlast'
        obtain rfl : p = p' := Option.some.inj (hhead.symm.trans hhead')
        exact ⟨before', hroute', rfl⟩
      by_cases hplan : p ∈ generateExecutionCache tops
      · obtain ⟨rfl, rfl⟩ := hroute.eq_nil hplan
        refine ⟨rfl, ?_⟩
        intro q' hq' trace' h'
        obtain ⟨before', hroute', rfl⟩ := hother q' hq' trace' h'
        obtain ⟨rfl, rfl⟩ := hroute'.eq_nil hplan
        exact ⟨rfl, rfl⟩
      · obtain ⟨hbefore, hunique⟩ := ih before.length hshorter hroute hp hplan rfl
        refine ⟨hbefore, ?_⟩
        intro q' hq' trace' h'
        obtain ⟨before', hroute', rfl⟩ := hother q' hq' trace' h'
        obtain ⟨rfl, rfl⟩ := hunique q' hq' before' hroute'
        exact ⟨rfl, rfl⟩

end Routes

/-! ## What the queue evaluates -/

open ArrayExpression

/-- `operator()`: what is evaluated for an expression at a position. What has a tensor is read. -/
def evaluations (cache : List ArrayExpression) (e : ArrayExpression) (position : Position) :
    List (ArrayExpression × Position) :=
  (e, position) :: (List.finRange e.arity).flatMap fun i =>
    if e.get i ∈ cache then []
    else (e.childPositions i position).flatMap (evaluations cache (e.get i))
termination_by e.nodes
decreasing_by exact nodes_get e i

/-- `execute_single`: what is evaluated for the tensor of an expression, over all work items. -/
def kernel (cache : List ArrayExpression) (e : ArrayExpression) :
    List (ArrayExpression × Position) :=
  (List.finRange e.arity).flatMap fun i =>
    if e.get i ∈ cache then []
    else (e.kernelPositions i).flatMap (evaluations cache (e.get i))

/-- `operator()` of the queue -/
def queueEvaluations (tops : List ArrayExpression) : List (ArrayExpression × Position) :=
  (generateExecutionCache tops).flatMap (kernel (generateExecutionCache tops))

/-- The elements of an expression that are evaluated. -/
def elementsOf (y : ArrayExpression) (events : List (ArrayExpression × Position)) : List ℕ :=
  events.filterMap fun event => if event.1 = y then y.element event.2 else none

/-- What is cacheable and has no tensor is evaluated at most once per element. -/
def InlinedOnce (tops : List ArrayExpression) : Prop :=
  ∀ top ∈ tops, ∀ y, PartOf y (Expr.cache top) → y.isCacheable = true →
    y ∉ generateExecutionCache tops → ∀ j, (elementsOf y (queueEvaluations tops)).count j ≤ 1

/-- All elements of an expression together evaluate each element of a child at most once. -/
def AccessedOnce (e : ArrayExpression) (i : Fin e.arity) : Prop :=
  ∀ j, ((e.kernelPositions i).filterMap (e.get i).element).count j ≤ 1

/-- How often the steps of a route repeat together. -/
def routeRepeats (trace : Trace ArrayExpression) : ℕ :=
  (trace.map fun triple => triple.expression.repeats triple.index).prod

/-- No step of a route to something inlined repeats an element. -/
def NothingRepeated (tops : List ArrayExpression) : Prop :=
  ∀ q ∈ generateExecutionCache tops, ∀ trace y, Route (generateExecutionCache tops) q trace y →
    y.isCacheable = true → y ∉ generateExecutionCache tops →
    y.elementShape.size = 0 ∨ routeRepeats trace ≤ 1

/-! ## Counting along a route -/

variable {cache : List ArrayExpression} {e q y : ArrayExpression} {trace : Trace ArrayExpression}

theorem elementsOf_flatMap {α : Type} (y : ArrayExpression) (l : List α)
    (f : α → List (ArrayExpression × Position)) :
    elementsOf y (l.flatMap f) = l.flatMap fun a => elementsOf y (f a) :=
  List.filterMap_flatMap

theorem elementsOf_evaluations (position : Position) :
    elementsOf y (evaluations cache e position) =
      (if e = y then (y.element position).toList else []) ++
        elementsOf y ((List.finRange e.arity).flatMap fun i => if e.get i ∈ cache then []
          else (e.childPositions i position).flatMap (evaluations cache (e.get i))) := by
  rw [evaluations, elementsOf, List.filterMap_cons]
  by_cases he : e = y
  · simp only [if_pos he]
    cases y.element position <;> rfl
  · simp only [if_neg he]
    rfl

/-- What there is no route to is not evaluated. -/
theorem elementsOf_children_eq_nil {child : Fin e.arity → List Position}
    (h : ∀ i, e.get i ∉ cache → ∀ position,
      elementsOf y (evaluations cache (e.get i) position) = []) :
    elementsOf y ((List.finRange e.arity).flatMap fun i =>
      if e.get i ∈ cache then [] else (child i).flatMap (evaluations cache (e.get i))) = [] := by
  rw [elementsOf_flatMap, List.flatMap_eq_nil_iff]
  intro i _
  split
  · rfl
  · rename_i hget
    rw [elementsOf_flatMap, List.flatMap_eq_nil_iff]
    intro position _
    exact h i hget position

theorem elementsOf_evaluations_eq_nil (h : ∀ trace, ¬ Route cache e trace y)
    (position : Position) : elementsOf y (evaluations cache e position) = [] := by
  induction e using induction_on generalizing position with
  | step e ih =>
      have hne : e ≠ y := by
        rintro rfl
        exact h [] (Route.here e)
      rw [elementsOf_evaluations, if_neg hne, List.nil_append]
      apply elementsOf_children_eq_nil
      intro i hget
      apply ih i
      intro trace hroute
      exact h _ (Route.step i hget hroute)

theorem elementsOf_kernel_eq_nil (h : ∀ trace, ¬ Route cache e trace y) :
    elementsOf y (kernel cache e) = [] := by
  apply elementsOf_children_eq_nil
  intro i hget
  apply elementsOf_evaluations_eq_nil
  intro trace hroute
  exact h _ (Route.step i hget hroute)

/-- Of the children only the one on the route matters. -/
theorem elementsOf_children {child : Fin e.arity → List Position} {i : Fin e.arity}
    {rest : Trace ArrayExpression} (hget : e.get i ∉ cache)
    (hunique : ∀ trace, Route cache e trace y → trace = ⟨e, e.access i, i⟩ :: rest) :
    elementsOf y ((List.finRange e.arity).flatMap fun k =>
        if e.get k ∈ cache then [] else (child k).flatMap (evaluations cache (e.get k))) =
      elementsOf y ((child i).flatMap (evaluations cache (e.get i))) := by
  rw [elementsOf_flatMap, flatMap_of_nodup (List.nodup_finRange _) i,
    if_pos (List.mem_finRange i), if_neg hget]
  intro k hk
  split
  · rfl
  · rename_i hgetk
    rw [elementsOf_flatMap, List.flatMap_eq_nil_iff]
    intro p _
    apply elementsOf_evaluations_eq_nil
    intro trace hroute
    have htrace := hunique _ (Route.step k hgetk hroute)
    rw [List.cons.injEq, Triple.mk.injEq] at htrace
    exact hk (Fin.ext htrace.1.2.2)

theorem Compiles.get (h : e.Compiles) (i : Fin e.arity) : (e.get i).Compiles := by
  cases e with
  | tensor | value | random => exact i.elim0
  | cast type inner => exact h.2
  | cache inner => exact h
  | unsqueeze dim inner => exact h.2
  | binary operation left right =>
      obtain ⟨-, -, -, -, hleft, hright⟩ := h
      show (if i.val = 0 then left else right).Compiles
      split
      · exact hleft
      · exact hright
  | matrixProduct left right =>
      obtain ⟨-, -, hleft, hright⟩ := h
      show (if i.val = 0 then left else right).Compiles
      split
      · exact hleft
      · exact hright
  | matrixVectorProduct matrix vector =>
      obtain ⟨-, -, hmatrix, hvector⟩ := h
      show (if i.val = 0 then matrix else vector).Compiles
      split
      · exact hmatrix
      · exact hvector
  | reduce operation inner => exact h
  | transform isInverse inner => exact h.2

theorem Compiles.partOf (h : e.Compiles) (hpart : PartOf y e) : y.Compiles := by
  rcases hpart with rfl | hinside
  · exact h
  · induction hinside with
    | child e i => exact Compiles.get h i
    | deeper i _ ih => exact ih (Compiles.get h i)

theorem elements_of_reaches {positions : List Position} {elements : List ℕ}
    (h : List.Forall₂ (Reaches e) positions elements) :
    positions.flatMap (fun position => (e.element position).toList) = elements := by
  induction h with
  | nil => rfl
  | cons hreaches _ ih =>
      rw [List.flatMap_cons, ih, hreaches.element]
      rfl

/-- Along a single route without a multiple access, each element is evaluated as often as the steps
repeat. -/
theorem covers_evaluations {m : ℕ} {positions : List Position} {elements : List ℕ}
    (hcompiles : e.Compiles)
    (hcomplex : ∀ x, PartOf x e → x.isComplex = true → x ∈ cache) (he : e ∉ cache)
    (hroute : Route cache e trace y) (hunique : ∀ trace', Route cache e trace' y → trace' = trace)
    (haccess : isNotMultipleAccess trace = true)
    (hreaches : List.Forall₂ (Reaches e) positions elements)
    (hcovers : Covers e.elementShape.counts.prod m elements) :
    Covers y.elementShape.counts.prod (m * routeRepeats trace)
      (elementsOf y (positions.flatMap (evaluations cache e))) := by
  rw [elementsOf_flatMap]
  induction hroute generalizing m positions elements with
  | here e =>
      have hone (position : Position) :
          elementsOf e (evaluations cache e position) = (e.element position).toList := by
        rw [elementsOf_evaluations, if_pos rfl, elementsOf_children_eq_nil, List.append_nil]
        intro i _
        apply elementsOf_evaluations_eq_nil
        intro trace hroute
        exact hroute.partOf.inside.ne rfl
      simp only [hone]
      rw [elements_of_reaches hreaches]
      show Covers _ (m * 1) _
      rwa [Nat.mul_one]
  | @step e y trace i hget hroute ih =>
      have hne : e ≠ y := hroute.partOf.inside.ne.symm
      -- an expression on the way evaluates nothing of `y` itself: all comes from the one child
      have hone (position : Position) : elementsOf y (evaluations cache e position) =
          (e.childPositions i position).flatMap fun p =>
            elementsOf y (evaluations cache (e.get i) p) := by
        rw [elementsOf_evaluations, if_neg hne, List.nil_append,
          elementsOf_children hget hunique, elementsOf_flatMap]
      -- what is not cached is not complex, so it reads its operands position by position
      have hsimple : e.isComplex = false := by
        by_contra h
        exact he (hcomplex e (PartOf.refl e) (by simpa using h))
      obtain ⟨honce, hrestOnce⟩ := isNotMultipleAccess_cons.mp haccess
      have hreaches' := List.rel_flatMap hreaches fun p j h =>
        reaches_childPositions hcompiles hsimple honce h
      have hcovers' := hcovers.flatMap (covers_childElements hcompiles hsimple honce)
      simp only [hone]
      rw [← List.flatMap_assoc]
      have hrest := ih (Compiles.get hcompiles i)
        (fun x hpart => hcomplex x hpart.inside.partOf) hget
        (fun trace' h => (List.cons.inj (hunique _ (Route.step i hget h))).2) hrestOnce
        hreaches' hcovers'
      rwa [Nat.mul_assoc] at hrest

/-! ## The whole queue -/

theorem isCacheable_of_isComplex (h : e.isComplex = true) : e.isCacheable = true := by
  cases e with
  | reduce | transform => rfl
  | tensor | value | random | cast | cache | unsqueeze | binary | matrixProduct
  | matrixVectorProduct => cases h

theorem compiles_cache (h : e.Compiles) : (Expr.cache e).Compiles := by
  unfold Expr.cache
  split
  · exact h
  · exact h

theorem partOf_cache (e : ArrayExpression) : PartOf e (Expr.cache e) := by
  unfold Expr.cache
  split
  · exact PartOf.refl e
  · exact (Inside.child (ArrayExpression.cache e) (0 : Fin 1)).partOf

section Queue

variable {tops : List ArrayExpression}

theorem mem_plan_of_isComplex (hpart : ∃ top ∈ tops, PartOf y (Expr.cache top))
    (h : y.isComplex = true) : y ∈ generateExecutionCache tops := by
  by_contra hnot
  have hinlined := inlined_of_not_mem hpart (isCacheable_of_isComplex h) hnot
  have hsimple : y.isComplex = false := hinlined.notComplex
  rw [h] at hsimple
  cases hsimple

/-- The queue evaluates each element of an inlined expression as often as the steps on the route to
it repeat. -/
theorem covers_queueEvaluations (hcompiles : ∀ top ∈ tops, top.Compiles)
    (hq : q ∈ generateExecutionCache tops)
    (hroute : Route (generateExecutionCache tops) q trace y) (hy : y.isCacheable = true)
    (hnot : y ∉ generateExecutionCache tops) :
    Covers y.elementShape.counts.prod (routeRepeats trace)
      (elementsOf y (queueEvaluations tops)) := by
  obtain ⟨haccess, hunique⟩ := hroute.unique hq hy hnot
  obtain ⟨-, top, htop, hpart⟩ := partOf_of_mem_plan hq
  have hq' : q.Compiles := Compiles.partOf (compiles_cache (hcompiles top htop)) hpart
  -- no other expression of the plan leads to it
  have hother : ∀ q' ∈ generateExecutionCache tops, q' ≠ q →
      elementsOf y (kernel (generateExecutionCache tops) q') = [] := by
    intro q' hmem hne
    apply elementsOf_kernel_eq_nil
    intro trace' hroute'
    exact hne (hunique q' hmem trace' hroute').1
  have hkernel : elementsOf y (queueEvaluations tops) =
      elementsOf y (kernel (generateExecutionCache tops) q) := by
    have hskip : (generateExecutionCache tops).flatMap
        (fun q' => elementsOf y (kernel (generateExecutionCache tops) q')) =
        (generateExecutionCache tops).flatMap fun q' => if q' = q then
          elementsOf y (kernel (generateExecutionCache tops) q) else [] := by
      apply List.flatMap_congr
      intro q' hmem
      split
      · rename_i heq
        rw [heq]
      · rename_i hne
        exact hother q' hmem hne
    rw [queueEvaluations, elementsOf_flatMap, hskip, flatMap_of_nodup (nodup_plan tops) q,
      if_pos hq, if_pos rfl]
    exact fun q' hne => if_neg hne
  rw [hkernel]
  cases hroute with
  | here => exact absurd hq hnot
  | @step _ _ rest i hget hroute =>
      obtain ⟨honce, hrestOnce⟩ := isNotMultipleAccess_cons.mp haccess
      obtain ⟨elements, hreaches, hcovers⟩ := covers_kernelPositions hq' honce
      have hchild : elementsOf y (kernel (generateExecutionCache tops) q) = elementsOf y
          ((q.kernelPositions i).flatMap (evaluations (generateExecutionCache tops) (q.get i))) :=
        elementsOf_children hget fun trace' h => (hunique q hq trace' h).2
      rw [hchild]
      apply covers_evaluations (Compiles.get hq' i) ?_ hget hroute ?_ hrestOnce hreaches hcovers
      · intro x hx hcomplex
        exact mem_plan_of_isComplex ⟨top, htop, hx.inside.partOf.trans hpart⟩ hcomplex
      · intro trace' h
        exact (List.cons.inj (hunique q hq _ (Route.step i hget h)).2).2

theorem elementsOf_queueEvaluations_eq_nil
    (h : ∀ q ∈ generateExecutionCache tops, ∀ trace,
      ¬ Route (generateExecutionCache tops) q trace y) :
    elementsOf y (queueEvaluations tops) = [] := by
  rw [queueEvaluations, elementsOf_flatMap, List.flatMap_eq_nil_iff]
  intro q hq
  exact elementsOf_kernel_eq_nil (h q hq)

/-- Inlined expressions are evaluated once exactly if no route to one repeats. -/
theorem inlinedOnce_iff_nothingRepeated (hcompiles : ∀ top ∈ tops, top.Compiles) :
    InlinedOnce tops ↔ NothingRepeated tops := by
  constructor
  · intro honce q hq trace y hroute hy hnot
    obtain ⟨-, top, htop, hpart⟩ := partOf_of_mem_plan hq
    have hcovers := covers_queueEvaluations hcompiles hq hroute hy hnot
    rw [Shape.size_eq]
    exact hcovers.count_le_one_iff.mp (honce top htop y (hroute.partOf.trans hpart) hy hnot)
  · intro hnothing top htop y hpart hy hnot
    by_cases hroute : ∃ q ∈ generateExecutionCache tops, ∃ trace,
        Route (generateExecutionCache tops) q trace y
    · obtain ⟨q, hq, trace, hroute⟩ := hroute
      have hrepeats := hnothing q hq trace y hroute hy hnot
      rw [Shape.size_eq] at hrepeats
      exact (covers_queueEvaluations hcompiles hq hroute hy hnot).count_le_one_iff.mpr hrepeats
    · have hnil : elementsOf y (queueEvaluations tops) = [] := by
        apply elementsOf_queueEvaluations_eq_nil
        intro q hq trace h
        exact hroute ⟨q, hq, trace, h⟩
      intro j
      rw [hnil]
      exact Nat.zero_le 1

end Queue

/-- A child that is not accessed `multiple` times is evaluated at most once per element exactly if
the expression does not repeat it. -/
theorem accessedOnce_iff (hcompiles : e.Compiles) {i : Fin e.arity}
    (haccess : e.access i ≠ Pattern.multiple) :
    AccessedOnce e i ↔ (e.get i).elementShape.size = 0 ∨ e.repeats i ≤ 1 := by
  obtain ⟨elements, hreaches, hcovers⟩ := covers_kernelPositions hcompiles haccess
  unfold AccessedOnce
  rw [List.filterMap_eq_flatMap_toList, elements_of_reaches hreaches, Shape.size_eq]
  exact hcovers.count_le_one_iff

/-- Inlining evaluates nothing twice exactly if no route to something inlined repeats, and an access
that is said to be `once` is one exactly if the expression does not repeat the child. -/
theorem inlinedOnce_iff {tops : List ArrayExpression} (hcompiles : ∀ top ∈ tops, top.Compiles) :
    (InlinedOnce tops ↔ NothingRepeated tops) ∧
      ∀ top ∈ tops, ∀ e, PartOf e (Expr.cache top) → ∀ i : Fin e.arity,
        e.access i = Pattern.once →
          (AccessedOnce e i ↔ (e.get i).elementShape.size = 0 ∨ e.repeats i ≤ 1) := by
  refine ⟨inlinedOnce_iff_nothingRepeated hcompiles, ?_⟩
  intro top htop e hpart i haccess
  apply accessedOnce_iff (Compiles.partOf (compiles_cache (hcompiles top htop)) hpart)
  rw [haccess]
  exact fun h => nomatch h

/-- A random expression plus a tensor of the same shape. -/
def randomSum : ArrayExpression :=
  binary .add (random ⟨0, 0⟩ 0 [.static 2]) (tensor ⟨0, 0⟩ 1 [.static 2])

theorem randomSum_once : AccessedOnce randomSum (0 : Fin 2) ∧
    (InlinedOnce [randomSum] ↔ NothingRepeated [randomSum]) := by
  have hcompiles : ∀ top ∈ [randomSum], top.Compiles := by
    intro top htop
    obtain rfl := List.mem_singleton.mp htop
    exact ⟨rfl, Or.inl rfl, Or.inr rfl, Or.inr rfl, trivial, trivial⟩
  obtain ⟨hinlined, haccessed⟩ := inlinedOnce_iff hcompiles
  refine ⟨?_, hinlined⟩
  apply (haccessed randomSum (List.mem_singleton_self _) randomSum
    (partOf_cache randomSum) (0 : Fin 2) rfl).mpr
  exact Or.inr (by decide)

theorem inTime_singleton (top : ArrayExpression) : InTime [top] := by
  intro before t after htops late hlate
  have hlength := congrArg List.length htops
  have hpos := List.length_pos_of_mem hlate
  simp only [List.length_map, List.length_append, List.length_cons, List.length_nil] at hlength
  omega

theorem planOrdered_singleton (top : ArrayExpression) : PlanOrdered [top] :=
  (planOrdered_iff [top]).mpr
    ⟨fun _ _ _ _ hcomplex => isCacheable_of_isComplex hcomplex, inTime_singleton top⟩

/-- A random matrix that is extended over two vectors. -/
def matrixOfVectors : ArrayExpression :=
  matrixVectorProduct (random ⟨0, 0⟩ 0 [.placeholder, .static 1, .static 1])
    (tensor ⟨0, 0⟩ 1 [.static 2, .static 1])

/-- A random scalar times a single vector. -/
def scalarTimesVector : ArrayExpression :=
  binary .multiply (random ⟨0, 0⟩ 0 []) (tensor ⟨0, 2⟩ 1 [])

/-- The random matrix is drawn for each of the vectors, and the random scalar for each element of
the vector, although both are said to be accessed once. -/
theorem inlined_twice :
    (matrixOfVectors.Compiles ∧ PlanOrdered [matrixOfVectors] ∧ ¬ InlinedOnce [matrixOfVectors] ∧
      matrixOfVectors.access (0 : Fin 2) = Pattern.once ∧
      ¬ AccessedOnce matrixOfVectors (0 : Fin 2)) ∧
    scalarTimesVector.Compiles ∧ PlanOrdered [scalarTimesVector] ∧
      ¬ InlinedOnce [scalarTimesVector] ∧
      scalarTimesVector.access (0 : Fin 2) = Pattern.once ∧
      ¬ AccessedOnce scalarTimesVector (0 : Fin 2) := by
  have hmatrix : (elementsOf (random ⟨0, 0⟩ 0 [.placeholder, .static 1, .static 1])
      (queueEvaluations [matrixOfVectors])).count 0 = 2 := by
    decide +kernel
  have hscalar : (elementsOf (random ⟨0, 0⟩ 0 [])
      (queueEvaluations [scalarTimesVector])).count 0 = 2 := by
    decide +kernel
  refine ⟨⟨⟨rfl, rfl, trivial, trivial⟩, planOrdered_singleton _, ?_, rfl, ?_⟩,
    ⟨rfl, Or.inl rfl, Or.inl rfl, Or.inr rfl, trivial, trivial⟩, planOrdered_singleton _, ?_, rfl,
    ?_⟩
  · intro h
    have hle := h matrixOfVectors (List.mem_singleton_self _)
      (random ⟨0, 0⟩ 0 [.placeholder, .static 1, .static 1])
      ((Inside.child matrixOfVectors (0 : Fin 2)).trans_partOf (partOf_cache _)).partOf
      rfl (by decide +kernel) 0
    omega
  · intro h
    have hle := h 0
    have htwo : (((matrixOfVectors.kernelPositions (0 : Fin 2)).filterMap
      (matrixOfVectors.get (0 : Fin 2)).element).count 0) = 2 := by decide +kernel
    omega
  · intro h
    have hle := h scalarTimesVector (List.mem_singleton_self _) (random ⟨0, 0⟩ 0 [])
      ((Inside.child scalarTimesVector (0 : Fin 2)).trans_partOf (partOf_cache _)).partOf
      rfl (by decide +kernel) 0
    omega
  · intro h
    have hle := h 0
    have htwo : (((scalarTimesVector.kernelPositions (0 : Fin 2)).filterMap
      (scalarTimesVector.get (0 : Fin 2)).element).count 0) = 2 := by decide +kernel
    omega

end Hmpc.Comp
