/-
# Hmpc.Expr.Cache -- the plan of an execution

The plan lists the expressions that get a tensor of their own. A first pass collects for each
cacheable expression its traces: the ways from a cacheable expression above it. A second pass goes
through the top-level expressions again and inserts what is needed behind what it is made of,
except for expressions that are not complex and have a single trace without a multiple access;
those are inlined. `isTrace_iff` and `mem_plan` say what the two passes leave.
-/
import Hmpc.Expr.Expression
import Hmpc.Lib.Loops

namespace Hmpc.Expr

open Expression Hmpc.Lib Hmpc.Lib.Loops

variable {E : Type} [DecidableEq E] [Expression E]

/-- `type_triple`: an expression, how it accesses a child, and which. -/
structure Triple (E : Type) where
  expression : E
  pattern : Pattern
  index : ℕ
  deriving DecidableEq

abbrev Trace (E : Type) := List (Triple E)

/-- `type_set::insert` -/
def TypeSet.insert {α : Type} [DecidableEq α] (l : List α) (a : α) : List α :=
  if a ∈ l then l else l ++ [a]

theorem TypeSet.mem_insert {α : Type} [DecidableEq α] {l : List α} {a b : α} :
    b ∈ TypeSet.insert l a ↔ b ∈ l ∨ b = a := by
  unfold TypeSet.insert
  split
  · rename_i ha
    exact ⟨Or.inl, fun h => h.elim id fun h => h ▸ ha⟩
  · rw [List.mem_append, List.mem_singleton]

theorem TypeSet.nodup_insert {α : Type} [DecidableEq α] {l : List α} (hl : l.Nodup) (a : α) :
    (TypeSet.insert l a).Nodup := by
  unfold TypeSet.insert
  split
  · exact hl
  · rename_i ha
    rw [List.nodup_append]
    refine ⟨hl, List.nodup_singleton a, ?_⟩
    intro b hb c hc
    rw [List.mem_singleton.mp hc]
    rintro rfl
    exact ha hb

/-- The traces collected so far. -/
abbrev Traces (E : Type) := Map E (List (Trace E))

/-- `get_or` with the empty set. -/
def Traces.getOr (traces : Traces E) (e : E) : List (Trace E) := (traces.lookup e).getD []

namespace Detail

/-! ## The two passes -/

/-- `trace_expression` -/
def traceExpression (traces : Traces E) (trace : Trace E) (e : E) : Traces E :=
  if isCacheable e then AList.insert e (TypeSet.insert (traces.getOr e) trace) traces
  else (List.finRange (arity e)).foldl (fun traces i =>
    traceExpression traces (trace ++ [⟨e, access e i, i⟩]) (get e i)) traces
termination_by size e
decreasing_by exact size_get e i

/-- `find_next_expression_to_trace` -/
def findNextExpressionToTrace (traces : Traces E) (e : E) : Traces E :=
  let traversed := (List.finRange (arity e)).foldl (fun traces i =>
    findNextExpressionToTrace traces (get e i)) traces
  if isCacheable e then
    (List.finRange (arity e)).foldl (fun traces i =>
      traceExpression traces [⟨e, access e i, i⟩] (get e i)) traversed
  else traversed
termination_by size e
decreasing_by exact size_get e i

/-- `trace_expressions` -/
def traceExpressions (traces : Traces E) (tops : List E) : Traces E :=
  tops.foldl findNextExpressionToTrace traces

/-- `is_not_multiple_access` -/
def isNotMultipleAccess (trace : Trace E) : Bool :=
  trace.all fun triple => triple.pattern ≠ Pattern.multiple

/-- The expression is read where it is used. -/
def isInlined (traces : Traces E) (e : E) : Bool :=
  !isComplex e && (traces.getOr e).length == 1 &&
    isNotMultipleAccess ((traces.getOr e).headD [])

/-- `cache_expression` -/
def cacheExpression (traces : Traces E) (isTopLevel : Bool) (cache : List E) (e : E) : List E :=
  let traversed := (List.finRange (arity e)).foldl (fun cache i =>
    cacheExpression traces false cache (get e i)) cache
  if isCacheable e then
    if isTopLevel then TypeSet.insert traversed e
    else if isInlined traces e then traversed
    else TypeSet.insert traversed e
  else traversed
termination_by size e
decreasing_by exact size_get e i

/-- `cache_expressions` -/
def cacheExpressions (traces : Traces E) (cache : List E) (tops : List E) : List E :=
  tops.foldl (cacheExpression traces true) cache

end Detail

open Hmpc.Expr.Detail

/-- The traces of the top-level expressions. -/
def tracesOf (tops : List E) : Traces E := traceExpressions ∅ (tops.map cache)

/-- `generate_execution_cache` -/
def generateExecutionCache (tops : List E) : List E :=
  cacheExpressions (tracesOf tops) [] (tops.map cache)

/-! ## What is traced -/

/-- A way down to a cacheable expression that meets no other one. -/
inductive Down : E → Trace E → E → Prop
  | here {e : E} (h : isCacheable e = true) : Down e [] e
  | step {e y : E} {trace : Trace E} (h : isCacheable e = false) (i : Fin (arity e))
      (down : Down (get e i) trace y) : Down e (⟨e, access e i, i⟩ :: trace) y

/-- A way from a cacheable expression in one of the top-level expressions. -/
def IsTrace (tops : List E) (y : E) (trace : Trace E) : Prop :=
  ∃ top ∈ tops, ∃ p, PartOf p (cache top) ∧ isCacheable p = true ∧
    ∃ i rest, Down (get p i) rest y ∧ trace = ⟨p, access p i, i⟩ :: rest

omit [DecidableEq E] in
theorem down_iff_of_cacheable {e y : E} {trace : Trace E} (h : isCacheable e = true) :
    Down e trace y ↔ trace = [] ∧ y = e := by
  constructor
  · intro hdown
    cases hdown with
    | here => exact ⟨rfl, rfl⟩
    | step hnot => rw [h] at hnot; cases hnot
  · rintro ⟨rfl, rfl⟩
    exact Down.here h

omit [DecidableEq E] in
theorem down_iff_of_not_cacheable {e y : E} {trace : Trace E} (h : isCacheable e = false) :
    Down e trace y ↔
      ∃ i rest, Down (get e i) rest y ∧ trace = ⟨e, access e i, i⟩ :: rest := by
  constructor
  · intro hdown
    cases hdown with
    | here hcacheable => rw [h] at hcacheable; cases hcacheable
    | step _ i hdown => exact ⟨i, _, hdown, rfl⟩
  · rintro ⟨i, rest, hdown, rfl⟩
    exact Down.step h i hdown

omit [Expression E] in
theorem getOr_insert (traces : Traces E) (e y : E) (set : List (Trace E)) :
    Traces.getOr (AList.insert e set traces) y = if y = e then set else traces.getOr y := by
  unfold Traces.getOr
  rw [Map.lookup_insert]
  split <;> rfl

theorem mem_traceExpression (e : E) : ∀ (traces : Traces E) (before trace : Trace E) (y : E),
    trace ∈ (traceExpression traces before e).getOr y ↔
      trace ∈ traces.getOr y ∨ ∃ rest, Down e rest y ∧ trace = before ++ rest := by
  induction e using induction_on with
  | step e ih =>
      intro traces before trace y
      rw [traceExpression]
      -- the trace ends at what is cacheable, and goes on to all operands of what is not
      split
      · rename_i hcacheable
        rw [getOr_insert]
        simp only [down_iff_of_cacheable hcacheable]
        by_cases hy : y = e
        · subst hy
          rw [if_pos rfl, TypeSet.mem_insert]
          simp
        · simp [hy]
      · rename_i hcacheable
        have hcacheable : isCacheable e = false := by simpa using hcacheable
        have hfold := foldl_iff_or (P := fun traces : Traces E => trace ∈ traces.getOr y)
          (fun traces i => ih i traces (before ++ [⟨e, access e i, i⟩]) trace y)
          (List.finRange (arity e)) traces
        rw [hfold]
        simp only [down_iff_of_not_cacheable hcacheable, List.mem_finRange, true_and]
        apply or_congr_right
        constructor
        · rintro ⟨i, rest, hdown, rfl⟩
          exact ⟨_, ⟨i, rest, hdown, rfl⟩, by simp⟩
        · rintro ⟨_, ⟨i, rest, hdown, rfl⟩, rfl⟩
          exact ⟨i, rest, hdown, by simp⟩

theorem mem_findNextExpressionToTrace (e : E) : ∀ (traces : Traces E) (trace : Trace E) (y : E),
    trace ∈ (findNextExpressionToTrace traces e).getOr y ↔
      trace ∈ traces.getOr y ∨ ∃ p, PartOf p e ∧ isCacheable p = true ∧
        ∃ i rest, Down (get p i) rest y ∧ trace = ⟨p, access p i, i⟩ :: rest := by
  induction e using induction_on with
  | step e ih =>
      intro traces trace y
      have htraversed := foldl_iff_or (P := fun traces : Traces E => trace ∈ traces.getOr y)
        (fun traces i => ih i traces trace y) (List.finRange (arity e)) traces
      rw [findNextExpressionToTrace]
      -- operands come first; a cacheable expression starts a trace at each of its operands
      split
      · rename_i hcacheable
        have hfold := fun traversed =>
          foldl_iff_or (P := fun traces : Traces E => trace ∈ traces.getOr y)
            (fun traces i => mem_traceExpression (get e i) traces [⟨e, access e i, i⟩] trace y)
            (List.finRange (arity e)) traversed
        rw [hfold, htraversed, or_assoc]
        apply or_congr_right
        constructor
        · rintro (⟨i, _, p, hp, h⟩ | ⟨i, _, rest, h⟩)
          · exact ⟨p, hp.inside.partOf, h⟩
          · exact ⟨e, PartOf.refl e, hcacheable, i, rest, h⟩
        · rintro ⟨p, rfl | hp, hpc, h⟩
          · obtain ⟨i, rest, h⟩ := h
            exact Or.inr ⟨i, List.mem_finRange i, rest, h⟩
          · obtain ⟨i, hp⟩ := inside_iff.mp hp
            exact Or.inl ⟨i, List.mem_finRange i, p, hp, hpc, h⟩
      · rename_i hcacheable
        rw [htraversed]
        apply or_congr_right
        constructor
        · rintro ⟨i, _, p, hp, h⟩
          exact ⟨p, hp.inside.partOf, h⟩
        · rintro ⟨p, rfl | hp, hpc, h⟩
          · exact absurd hpc hcacheable
          · obtain ⟨i, hp⟩ := inside_iff.mp hp
            exact ⟨i, List.mem_finRange i, p, hp, hpc, h⟩

/-- The traces found are the ways from a cacheable expression down to the next one. -/
theorem mem_tracesOf {tops : List E} {y : E} {trace : Trace E} :
    trace ∈ (tracesOf tops).getOr y ↔ IsTrace tops y trace := by
  unfold tracesOf traceExpressions
  rw [foldl_iff_or (P := fun traces : Traces E => trace ∈ traces.getOr y)
    (fun traces e => mem_findNextExpressionToTrace e traces trace y)]
  have hempty : trace ∉ Traces.getOr (∅ : Traces E) y := by
    simp [Traces.getOr]
  simp only [hempty, false_or, List.mem_map, IsTrace]
  constructor
  · rintro ⟨_, ⟨top, htop, rfl⟩, h⟩
    exact ⟨top, htop, h⟩
  · rintro ⟨top, htop, h⟩
    exact ⟨_, ⟨top, htop, rfl⟩, h⟩

/-- All sets of traces are sets. -/
def Traces.Distinct (traces : Traces E) : Prop := ∀ y, (traces.getOr y).Nodup

theorem distinct_traceExpression (e : E) : ∀ (traces : Traces E) (before : Trace E),
    traces.Distinct → (traceExpression traces before e).Distinct := by
  induction e using induction_on with
  | step e ih =>
      intro traces before h
      rw [traceExpression]
      split
      · intro y
        rw [getOr_insert]
        split
        · exact TypeSet.nodup_insert (h e) before
        · exact h y
      · apply foldl_keeps (P := Traces.Distinct) _ _ h
        intro i _ traces hs
        exact ih i traces _ hs

theorem distinct_findNextExpressionToTrace (e : E) : ∀ traces : Traces E,
    traces.Distinct → (findNextExpressionToTrace traces e).Distinct := by
  induction e using induction_on with
  | step e ih =>
      intro traces h
      rw [findNextExpressionToTrace]
      have htraversed := foldl_keeps (P := Traces.Distinct) (List.finRange (arity e))
        (fun i _ traces hs => ih i traces hs) h
      split
      · apply foldl_keeps (P := Traces.Distinct) _ _ htraversed
        intro i _ traces hs
        exact distinct_traceExpression (get e i) traces _ hs
      · exact htraversed

theorem distinct_tracesOf (tops : List E) : (tracesOf tops).Distinct := by
  apply foldl_keeps (P := Traces.Distinct)
  · intro top _ traces hs
    exact distinct_findNextExpressionToTrace top traces hs
  · intro y
    simp [Traces.getOr]

/-! ## What is inlined, and what is in the plan -/

/-- Neither complex nor needed twice: a single trace, and no multiple access on it. -/
structure Inlined (tops : List E) (e : E) : Prop where
  notComplex : isComplex e = false
  trace : ∃ trace, (∀ t, IsTrace tops e t ↔ t = trace) ∧ isNotMultipleAccess trace = true

theorem isInlined_iff {tops : List E} {e : E} :
    isInlined (tracesOf tops) e = true ↔ Inlined tops e := by
  have hdistinct := distinct_tracesOf tops e
  have hmem (t : Trace E) := @mem_tracesOf E _ _ tops e t
  unfold isInlined
  simp only [Bool.and_eq_true, Bool.not_eq_true', beq_iff_eq]
  constructor
  · rintro ⟨⟨hcomplex, hlength⟩, hmultiple⟩
    obtain ⟨trace, htraces⟩ := List.length_eq_one_iff.mp hlength
    refine ⟨hcomplex, trace, ?_, ?_⟩
    · intro t
      rw [← hmem, htraces, List.mem_singleton]
    · rw [htraces] at hmultiple
      exact hmultiple
  · rintro ⟨hcomplex, trace, hunique, hmultiple⟩
    have htraces : (tracesOf tops).getOr e = [trace] := by
      apply List.perm_singleton.mp
      rw [List.perm_ext_iff_of_nodup hdistinct (List.nodup_singleton trace)]
      intro t
      rw [hmem, hunique, List.mem_singleton]
    rw [htraces]
    exact ⟨⟨hcomplex, rfl⟩, hmultiple⟩

theorem isInlined_eq_false_iff {tops : List E} {e : E} :
    isInlined (tracesOf tops) e = false ↔ ¬ Inlined tops e := by
  rw [← isInlined_iff, Bool.not_eq_true]

/-- What the second pass inserts where it meets it below a top-level expression. -/
def Inserted (traces : Traces E) (e : E) : Prop :=
  isCacheable e = true ∧ isInlined traces e = false

theorem mem_cacheExpression_false (traces : Traces E) (e : E) : ∀ (cache : List E) (y : E),
    y ∈ cacheExpression traces false cache e ↔ y ∈ cache ∨ PartOf y e ∧ Inserted traces y := by
  induction e using induction_on with
  | step e ih =>
      intro cache y
      have htraversed := foldl_iff_or (P := fun cache : List E => y ∈ cache)
        (fun cache i => ih i cache y) (List.finRange (arity e)) cache
      have hinside : (∃ i ∈ List.finRange (arity e), PartOf y (get e i) ∧ Inserted traces y) ↔
          Inside y e ∧ Inserted traces y := by
        simp only [List.mem_finRange, true_and, inside_iff, exists_and_right]
      rw [hinside] at htraversed
      have hself : PartOf y e ∧ Inserted traces y ↔
          (Inside y e ∧ Inserted traces y) ∨ y = e ∧ Inserted traces e := by
        constructor
        · rintro ⟨rfl | hy, hins⟩
          · exact Or.inr ⟨rfl, hins⟩
          · exact Or.inl ⟨hy, hins⟩
        · rintro (⟨hy, hins⟩ | ⟨rfl, hins⟩)
          · exact ⟨hy.partOf, hins⟩
          · exact ⟨PartOf.refl _, hins⟩
      rw [Detail.cacheExpression, hself, ← or_assoc, ← htraversed]
      simp only [Bool.false_eq_true, if_false]
      -- only what is cacheable and not inlined is inserted, after its operands
      split_ifs with hcacheable hinlined
      · have hnot : ¬ Inserted traces e := fun h =>
          Bool.noConfusion (hinlined.symm.trans h.2)
        simp [hnot]
      · have hins : Inserted traces e := ⟨hcacheable, by simpa using hinlined⟩
        rw [TypeSet.mem_insert]
        simp [hins]
      · have hnot : ¬ Inserted traces e := fun h => hcacheable h.1
        simp [hnot]

theorem mem_cacheExpression_true (traces : Traces E) {e : E} (h : isCacheable e = true)
    (cache : List E) (y : E) :
    y ∈ cacheExpression traces true cache e ↔
      (y ∈ cache ∨ Inside y e ∧ Inserted traces y) ∨ y = e := by
  have htraversed := foldl_iff_or (P := fun cache : List E => y ∈ cache)
    (fun cache i => mem_cacheExpression_false traces (get e i) cache y)
    (List.finRange (arity e)) cache
  rw [Detail.cacheExpression, if_pos h, if_pos rfl, TypeSet.mem_insert, htraversed]
  simp only [List.mem_finRange, true_and, inside_iff, exists_and_right]

/-- After some top-level expressions the plan has them, and what is inserted inside of them. -/
theorem mem_cacheExpressions (traces : Traces E) {tops : List E}
    (htops : ∀ top ∈ tops, isCacheable top = true) (cache : List E) (y : E) :
    y ∈ cacheExpressions traces cache tops ↔
      y ∈ cache ∨ ∃ top ∈ tops, Inside y top ∧ Inserted traces y ∨ y = top := by
  unfold cacheExpressions
  induction tops generalizing cache with
  | nil => simp
  | cons top tops ih =>
      have hrest := ih (fun t ht => htops t (List.mem_cons_of_mem _ ht))
      rw [List.foldl_cons, hrest,
        mem_cacheExpression_true traces (htops top List.mem_cons_self)]
      simp only [List.exists_mem_cons_iff, or_assoc]

theorem nodup_cacheExpression (traces : Traces E) (e : E) :
    ∀ (isTopLevel : Bool) (cache : List E), cache.Nodup →
      (cacheExpression traces isTopLevel cache e).Nodup := by
  induction e using induction_on with
  | step e ih =>
      intro isTopLevel cache h
      have htraversed := foldl_keeps (P := List.Nodup) (List.finRange (arity e))
        (fun i _ cache hs => ih i false cache hs) h
      rw [Detail.cacheExpression]
      split_ifs
      · exact TypeSet.nodup_insert htraversed e
      · exact htraversed
      · exact TypeSet.nodup_insert htraversed e
      · exact htraversed

theorem nodup_plan (tops : List E) : (generateExecutionCache tops).Nodup := by
  apply foldl_keeps (P := List.Nodup)
  · intro top _ cache hs
    exact nodup_cacheExpression _ top true cache hs
  · exact List.nodup_nil

omit [DecidableEq E] in
theorem isCacheable_of_mem_map {tops : List E} {top : E} (h : top ∈ tops.map cache) :
    isCacheable top = true := by
  obtain ⟨e, _, rfl⟩ := List.mem_map.mp h
  exact isCacheable_cache e

/-- The plan has the top-level expressions, and what is cacheable and not inlined inside. -/
theorem mem_plan {tops : List E} {y : E} :
    y ∈ generateExecutionCache tops ↔ ∃ top ∈ tops.map cache,
      Inside y top ∧ isCacheable y = true ∧ ¬ Inlined tops y ∨ y = top := by
  unfold generateExecutionCache
  rw [mem_cacheExpressions _ fun top htop => isCacheable_of_mem_map htop]
  simp only [List.not_mem_nil, false_or, Inserted, isInlined_eq_false_iff]

end Hmpc.Expr
