/-
# Hmpc.Comp.Plan -- the queue carries out a plan

The queue computes the tensors of a plan in order. While it computes one, every part of the
expression that is in the plan is read from its tensor, and everything else is evaluated. The plan
puts an expression behind all parts of it that are inserted below it; a top-level expression that
is only inserted for being one may come too late, and `planOrdered_iff` says that nothing else can.
-/
import Hmpc.Expr.Cache
import Hmpc.Expr.Syntax

namespace Hmpc.Comp

open Hmpc.Expr Hmpc.Expr.Expression Hmpc.Expr.Detail Hmpc.Lib.Loops

variable {E : Type} [DecidableEq E] [Expression E]

/-! ## The queue -/

/-- `state`: the expressions whose tensors are read for this one. -/
def state (cache : List E) (e : E) : List E :=
  if e ∈ cache then [e]
  else (List.finRange (arity e)).flatMap fun i => state cache (get e i)
termination_by size e
decreasing_by exact size_get e i

/-- What `execute_single` reads. -/
def reads (cache : List E) (e : E) : List E :=
  (List.finRange (arity e)).flatMap fun i => state cache (get e i)

/-- `operator()`: the positions of the plan in order. Nothing is the result where a tensor is read
before it is computed. -/
def execute (cache : List E) (computed : List E) : List E → Option (List E)
  | [] => some computed
  | e :: todo =>
      if (reads cache e).all (· ∈ computed) then execute cache (computed ++ [e]) todo else none

/-- The plan of these top-level expressions has what is needed, once, in an order that works. -/
structure PlanOrdered (tops : List E) : Prop where
  topLevel : ∀ top ∈ tops, (generateExecutionCache tops).count (cache top) = 1
  complex : ∀ top ∈ tops, ∀ e, PartOf e (cache top) → isComplex e = true →
    (generateExecutionCache tops).count e = 1
  reads : ∀ i (h : i < (generateExecutionCache tops).length),
    ∀ y ∈ reads (generateExecutionCache tops) (generateExecutionCache tops)[i],
      (generateExecutionCache tops).idxOf y < i
  executes : (execute (generateExecutionCache tops) [] (generateExecutionCache tops)).isSome

/-! ## What is read -/

theorem mem_state (cache : List E) (e : E) : ∀ y, y ∈ state cache e → PartOf y e ∧ y ∈ cache := by
  induction e using induction_on with
  | step e ih =>
      intro y hy
      rw [state] at hy
      split at hy
      · rename_i he
        rw [List.mem_singleton.mp hy]
        exact ⟨PartOf.refl e, he⟩
      · obtain ⟨i, _, hy⟩ := List.mem_flatMap.mp hy
        obtain ⟨hpart, hcache⟩ := ih i y hy
        exact ⟨hpart.inside.partOf, hcache⟩

theorem mem_reads {cache : List E} {e y : E} (h : y ∈ reads cache e) :
    Inside y e ∧ y ∈ cache := by
  obtain ⟨i, _, hy⟩ := List.mem_flatMap.mp h
  obtain ⟨hpart, hcache⟩ := mem_state cache _ y hy
  exact ⟨hpart.inside, hcache⟩

/-- On the way down to a part with a tensor, something with a tensor is met. -/
theorem exists_mem_state (cache : List E) (e : E) : ∀ y, PartOf y e → y ∈ cache →
    ∃ z ∈ state cache e, PartOf y z := by
  induction e using induction_on with
  | step e ih =>
      intro y hpart hy
      rw [state]
      split
      · exact ⟨e, List.mem_singleton_self e, hpart⟩
      · rename_i he
        rcases hpart with rfl | hinside
        · exact absurd hy he
        · obtain ⟨i, hpart⟩ := inside_iff.mp hinside
          obtain ⟨z, hz, hyz⟩ := ih i y hpart hy
          exact ⟨z, List.mem_flatMap.mpr ⟨i, List.mem_finRange i, hz⟩, hyz⟩

theorem exists_mem_reads {cache : List E} {e y : E} (hinside : Inside y e) (hy : y ∈ cache) :
    ∃ z ∈ reads cache e, PartOf y z := by
  obtain ⟨i, hpart⟩ := inside_iff.mp hinside
  obtain ⟨z, hz, hyz⟩ := exists_mem_state cache (get e i) y hpart hy
  exact ⟨z, List.mem_flatMap.mpr ⟨i, List.mem_finRange i, hz⟩, hyz⟩

/-- The queue gets to the end exactly if what it reads stands earlier. -/
theorem execute_isSome {cache : List E} (hreads : ∀ i (h : i < cache.length),
    ∀ y ∈ reads cache cache[i], cache.idxOf y < i) :
    (execute cache [] cache).isSome := by
  -- on the rest of the queue; what stands earlier is what is computed
  have hstep : ∀ todo computed : List E, computed ++ todo = cache →
      (execute cache computed todo).isSome := by
    intro todo
    induction todo with
    | nil =>
        intro computed _
        rfl
    | cons e todo ih =>
        intro computed hcache
        have hlength : computed.length < cache.length := by
          rw [← hcache]
          simp
        have he : cache[computed.length] = e := by
          simp [← hcache]
        have hall : (reads cache e).all (· ∈ computed) = true := by
          rw [List.all_eq_true]
          intro y hy
          have hidx := hreads computed.length hlength y (by rw [he]; exact hy)
          rw [← hcache] at hidx
          by_contra hnot
          rw [List.idxOf_append_of_notMem (by simpa using hnot)] at hidx
          omega
        rw [execute, if_pos hall]
        exact ih (computed ++ [e]) (by rw [List.append_assoc]; exact hcache)
  exact hstep cache [] rfl

/-! ## The order of the plan -/

/-- Everything in a list stands behind those of its parts that have the property. -/
def Behind (needed : E → Prop) (cache : List E) : Prop :=
  ∀ x ∈ cache, ∀ y, Inside y x → needed y → cache.idxOf y < cache.idxOf x

theorem Behind.mem {needed : E → Prop} {cache : List E} (h : Behind needed cache) {x y : E}
    (hx : x ∈ cache) (hinside : Inside y x) (hy : needed y) : y ∈ cache :=
  List.idxOf_lt_length_iff.mp ((h x hx y hinside hy).trans (List.idxOf_lt_length_of_mem hx))

/-- An expression may be inserted when its needed parts are there. -/
theorem Behind.insert {needed : E → Prop} {cache : List E} (h : Behind needed cache) {e : E}
    (he : ∀ y, Inside y e → needed y → y ∈ cache) : Behind needed (TypeSet.insert cache e) := by
  unfold TypeSet.insert
  split
  · exact h
  · rename_i hnot
    intro x hx y hinside hy
    rcases List.mem_append.mp hx with hx | hx
    · have hmem := h.mem hx hinside hy
      rw [List.idxOf_append_of_mem hmem, List.idxOf_append_of_mem hx]
      exact h x hx y hinside hy
    · rw [List.mem_singleton.mp hx] at hinside ⊢
      have hmem := he y hinside hy
      rw [List.idxOf_append_of_mem hmem, List.idxOf_append_of_notMem hnot]
      have hidx := List.idxOf_lt_length_of_mem hmem
      omega

/-- The children are passed first; what is needed of them is there afterwards. -/
theorem Behind.children {needed : E → Prop} {traces : Traces E} {e : E}
    (hchild : ∀ (i : Fin (arity e)) (cache : List E), Behind needed cache →
      (∀ y, Inside y (get e i) → needed y → y ∈ cache ∨ Inserted traces y) →
      Behind needed (cacheExpression traces false cache (get e i)))
    {cache : List E} (h : Behind needed cache)
    (hneeded : ∀ y, Inside y e → needed y → y ∈ cache ∨ Inserted traces y) :
    let traversed := (List.finRange (arity e)).foldl (fun cache i =>
      cacheExpression traces false cache (get e i)) cache
    Behind needed traversed ∧ ∀ y, Inside y e → needed y → y ∈ traversed := by
  have hmem (y : E) := foldl_iff_or (P := fun cache : List E => y ∈ cache)
    (fun cache i => mem_cacheExpression_false traces (get e i) cache y)
    (List.finRange (arity e)) cache
  constructor
  -- the cache only grows, so what is needed of a child is still there when it is its turn
  · refine And.left <| foldl_keeps (P := fun s => Behind needed s ∧ cache ⊆ s) _ ?_
      ⟨h, fun _ hy => hy⟩
    rintro i _ s ⟨hs, hsubset⟩
    constructor
    · apply hchild i s hs
      intro y hinside hy
      exact (hneeded y hinside.partOf.inside hy).imp_left fun hcache => hsubset hcache
    · intro y hy
      exact (mem_cacheExpression_false traces (get e i) s y).mpr (Or.inl (hsubset hy))
  · intro y hinside hy
    rw [hmem]
    apply (hneeded y hinside hy).imp_right
    intro hins
    obtain ⟨i, hpart⟩ := inside_iff.mp hinside
    exact ⟨i, List.mem_finRange i, hpart, hins⟩

/-- The second pass keeps the order, if it does not meet something needed that it does not insert
and that is not there yet. -/
theorem Behind.cacheExpression {needed : E → Prop} (traces : Traces E) (e : E) :
    ∀ (isTopLevel : Bool) (cache : List E), Behind needed cache →
      (∀ y, Inside y e → needed y → y ∈ cache ∨ Inserted traces y) →
      Behind needed (cacheExpression traces isTopLevel cache e) := by
  induction e using induction_on with
  | step e ih =>
      intro isTopLevel cache h hneeded
      obtain ⟨htraversed, hthere⟩ := h.children (fun i => ih i false) hneeded
      rw [Detail.cacheExpression]
      split_ifs
      · exact htraversed.insert hthere
      · exact htraversed
      · exact htraversed.insert hthere
      · exact htraversed

/-- No top-level expression that would be inlined stands behind one that contains it, unless it
has stood earlier already. -/
def InTime (tops : List E) : Prop :=
  ∀ before top after, tops.map cache = before ++ top :: after →
    ∀ late ∈ after, late ∉ before → Inside late top → ¬ Inlined tops late

theorem InTime.behind {tops : List E} (h : InTime tops) :
    Behind (· ∈ generateExecutionCache tops) (generateExecutionCache tops) := by
  have hstep : ∀ after before : List E, tops.map cache = before ++ after →
      Behind (· ∈ generateExecutionCache tops) (cacheExpressions (tracesOf tops) [] before) →
      Behind (· ∈ generateExecutionCache tops)
        (cacheExpressions (tracesOf tops) [] (before ++ after)) := by
    intro after
    induction after with
    | nil =>
        intro before _ hbefore
        rwa [List.append_nil]
    | cons top after ih =>
        intro before htops hbefore
        have hcons : before ++ top :: after = before ++ [top] ++ after := by simp
        rw [hcons] at htops ⊢
        apply ih _ htops
        unfold cacheExpressions
        rw [List.foldl_append]
        apply Behind.cacheExpression _ _ _ _ hbefore
        -- a part is inserted below this one, or it is a top-level expression and was in time
        intro y hinside hy
        obtain ⟨t, ht, ⟨_, hcacheable, hnot⟩ | rfl⟩ := mem_plan.mp hy
        · exact Or.inr ⟨hcacheable, isInlined_eq_false_iff.mpr hnot⟩
        · by_cases hmem : y ∈ before
          · left
            have hcacheable : ∀ t ∈ before, isCacheable t = true := by
              intro t ht
              apply @isCacheable_of_mem_map E _ tops
              rw [htops]
              simp [ht]
            exact (mem_cacheExpressions _ hcacheable [] y).mpr
              (Or.inr ⟨y, hmem, Or.inr rfl⟩)
          · right
            have hafter : y ∈ after := by
              rw [htops] at ht
              simpa [hmem, hinside.ne] using ht
            have hnot := h before top after (htops.trans hcons.symm) y hafter hmem hinside
            exact ⟨isCacheable_of_mem_map ht, isInlined_eq_false_iff.mpr hnot⟩
  have hplan := hstep (tops.map cache) [] rfl (fun x hx => nomatch hx)
  exact hplan

/-- The plan only grows. -/
theorem prefix_cacheExpression (traces : Traces E) (e : E) :
    ∀ (isTopLevel : Bool) (cache : List E),
      cache <+: cacheExpression traces isTopLevel cache e := by
  induction e using induction_on with
  | step e ih =>
      intro isTopLevel cache
      have htraversed := foldl_keeps (P := fun s => cache <+: s) (List.finRange (arity e))
        (fun i _ s hs => hs.trans (ih i false s)) (List.prefix_refl cache)
      have hinsert (l : List E) : l <+: TypeSet.insert l e := by
        unfold TypeSet.insert
        split
        · exact List.prefix_refl l
        · exact List.prefix_append l [e]
      rw [Detail.cacheExpression]
      split_ifs
      · exact htraversed.trans (hinsert _)
      · exact htraversed
      · exact htraversed.trans (hinsert _)
      · exact htraversed

/-- Where reads stand earlier, all parts with a tensor do. -/
theorem behind_of_reads {cache : List E} (hreads : ∀ i (h : i < cache.length),
    ∀ y ∈ reads cache cache[i], cache.idxOf y < i) :
    Behind (· ∈ cache) cache := by
  have hstep : ∀ n, ∀ x ∈ cache, cache.idxOf x = n → ∀ y, Inside y x → y ∈ cache →
      cache.idxOf y < n := by
    intro n
    induction n using Nat.strong_induction_on with
    | h n ih =>
        rintro x hx rfl y hinside hy
        have hlength := List.idxOf_lt_length_of_mem hx
        obtain ⟨z, hz, hyz⟩ := exists_mem_reads hinside hy
        have hzx := hreads (cache.idxOf x) hlength z (by rw [List.getElem_idxOf]; exact hz)
        rcases hyz with rfl | hyz
        · exact hzx
        · exact (ih _ hzx z (mem_reads hz).2 rfl y hyz hy).trans hzx
  exact fun x hx y hinside hy => hstep _ x hx rfl y hinside hy

theorem inTime_of_behind {tops : List E}
    (h : Behind (· ∈ generateExecutionCache tops) (generateExecutionCache tops)) :
    InTime tops := by
  intro before top after htops late hafter hbefore hinside hinlined
  have hlate : late ∈ tops.map cache := by
    rw [htops]
    simp [hafter]
  have htop : top ∈ tops.map cache := by
    rw [htops]
    simp
  -- the plan when the top-level expression has just been inserted
  have hcacheable : ∀ t ∈ before ++ [top], isCacheable t = true := by
    intro t ht
    apply @isCacheable_of_mem_map E _ tops
    rw [htops]
    rcases List.mem_append.mp ht with ht | ht
    · simp [ht]
    · simp [List.mem_singleton.mp ht]
  have hmem := mem_cacheExpressions (tracesOf tops) hcacheable []
  have hthere : top ∈ cacheExpressions (tracesOf tops) [] (before ++ [top]) :=
    (hmem top).mpr (Or.inr ⟨top, by simp, Or.inr rfl⟩)
  have hnot : late ∉ cacheExpressions (tracesOf tops) [] (before ++ [top]) := by
    intro hmem'
    obtain ⟨t, ht, ⟨_, hins⟩ | rfl⟩ := ((hmem late).mp hmem').resolve_left List.not_mem_nil
    · rw [Inserted, isInlined_iff.mpr hinlined] at hins
      cases hins.2
    · rcases List.mem_append.mp ht with ht | ht
      · exact hbefore ht
      · exact hinside.ne (List.mem_singleton.mp ht)
  have hprefix : cacheExpressions (tracesOf tops) [] (before ++ [top]) <+:
      generateExecutionCache tops := by
    unfold generateExecutionCache
    rw [htops, show before ++ top :: after = before ++ [top] ++ after by simp]
    unfold cacheExpressions
    rw [@List.foldl_append _ _ _ _ (before ++ [top])]
    exact foldl_keeps (P := fun s => cacheExpressions (tracesOf tops) [] (before ++ [top]) <+: s)
      after (fun e _ s hs => hs.trans (prefix_cacheExpression _ e true s)) (List.prefix_refl _)
  obtain ⟨rest, hrest⟩ := hprefix
  have hidx := h top (mem_plan.mpr ⟨top, htop, Or.inr rfl⟩) late hinside
    (mem_plan.mpr ⟨late, hlate, Or.inr rfl⟩)
  rw [← hrest, List.idxOf_append_of_mem hthere, List.idxOf_append_of_notMem hnot] at hidx
  have hlength := List.idxOf_lt_length_of_mem hthere
  omega

/-! ## Which plans are in order -/

/-- The plan is in order exactly if complex expressions are cacheable and no top-level expression
that would be inlined comes after one that contains it. -/
theorem planOrdered_iff (tops : List E) :
    PlanOrdered tops ↔
      (∀ top ∈ tops, ∀ e, PartOf e (cache top) → isComplex e = true → isCacheable e = true) ∧
        InTime tops := by
  have hcount {y : E} : (generateExecutionCache tops).count y = 1 ↔
      y ∈ generateExecutionCache tops := by
    constructor
    · intro h
      exact List.count_pos_iff.mp (by omega)
    · intro h
      exact List.count_eq_one_of_mem (nodup_plan tops) h
  constructor
  · intro h
    constructor
    · intro top htop e hpart hcomplex
      have hmem := hcount.mp (h.complex top htop e hpart hcomplex)
      obtain ⟨t, ht, ⟨_, hcacheable, _⟩ | rfl⟩ := mem_plan.mp hmem
      · exact hcacheable
      · exact isCacheable_of_mem_map ht
    · exact inTime_of_behind (behind_of_reads h.reads)
  · rintro ⟨hcomplex, hinTime⟩
    have hbehind := hinTime.behind
    -- a read is of a child that is in the cache; the traversal has put it in earlier
    have hreads : ∀ i (h : i < (generateExecutionCache tops).length),
        ∀ y ∈ reads (generateExecutionCache tops) (generateExecutionCache tops)[i],
          (generateExecutionCache tops).idxOf y < i := by
      intro i hi y hy
      obtain ⟨hinside, hmem⟩ := mem_reads hy
      have hidx := hbehind _ (List.getElem_mem hi) y hinside hmem
      rwa [(nodup_plan tops).idxOf_getElem] at hidx
    refine ⟨?_, ?_, hreads, execute_isSome hreads⟩
    · intro top htop
      rw [hcount]
      exact mem_plan.mpr ⟨cache top, List.mem_map_of_mem htop, Or.inr rfl⟩
    · intro top htop e hpart hc
      rw [hcount]
      apply mem_plan.mpr
      refine ⟨cache top, List.mem_map_of_mem htop, ?_⟩
      rcases hpart with rfl | hinside
      · exact Or.inr rfl
      · refine Or.inl ⟨hinside, hcomplex top htop e hinside.partOf hc, ?_⟩
        -- a complex expression is cached, never inlined
        intro hinlined
        rw [hinlined.notComplex] at hc
        cases hc

/-- A random expression that comes after a cast of it: the cast is computed from its tensor. -/
theorem cast_before_random : ¬ PlanOrdered
    [ArrayExpression.cast ⟨1, 0⟩ (.random ⟨0, 0⟩ 0 [.static 2]),
      ArrayExpression.random ⟨0, 0⟩ 0 [.static 2]] := by
  intro h
  have hfails : (execute (generateExecutionCache
      [ArrayExpression.cast ⟨1, 0⟩ (.random ⟨0, 0⟩ 0 [.static 2]),
        ArrayExpression.random ⟨0, 0⟩ 0 [.static 2]]) [] (generateExecutionCache
      [ArrayExpression.cast ⟨1, 0⟩ (.random ⟨0, 0⟩ 0 [.static 2]),
        ArrayExpression.random ⟨0, 0⟩ 0 [.static 2]])).isSome = false := by
    decide +kernel
  rw [h.executes] at hfails
  cases hfails

end Hmpc.Comp
