/-
# Hmpc.Comp.Evaluation -- programs of homomorphic operations on the queue

A circuit is evaluated by one call of the queue, for both parts of its ciphertext. A program is a
sequence of such calls, whose tensors are the ciphertexts that later calls take. Each call runs on
a device of its own, with its work items in any order. What the program leaves as a ciphertext is
one circuit of the encryptions it began with, and decrypts to this circuit on the plaintexts:
`queue_evaluates_programs`.
-/
import Hmpc.Comp.Execution
import Hmpc.Expr.Lhe.Randomness

namespace Hmpc.Comp.Evaluation

open Hmpc.Core Hmpc.Ints Hmpc.Lib Hmpc.Lib.Negacyclic Hmpc.Expr Hmpc.Expr.Expression
  Hmpc.Expr.ArrayExpression Hmpc.Expr.NumberTheoreticTransform Hmpc.Expr.Lhe Polynomial

/-! ## Plans of these calls -/

/-- No products of matrices, no reductions and no caches, and what is random is transformed. -/
def Plain : ArrayExpression → Prop
  | .tensor .. | .value .. => True
  | .cast _ inner | .unsqueeze _ inner => Plain inner
  | .binary _ left right => Plain left ∧ Plain right
  | .transform _ inner => Device.isRandom inner = true ∨ Plain inner
  | .random .. | .cache .. | .matrixProduct .. | .matrixVectorProduct .. | .reduce .. => False

theorem Plain.get {e : ArrayExpression} (h : Plain e) (i : Fin e.arity) :
    Plain (e.get i) ∨ Device.isRandom (e.get i) = true ∧ e.isComplex = true ∧ e.repeats i = 1 := by
  cases e with
  | tensor | value => exact i.elim0
  | cast | unsqueeze => exact Or.inl h
  | binary =>
      rcases (by decide : ∀ i : Fin 2, i = 0 ∨ i = 1) i with rfl | rfl
      · exact Or.inl h.1
      · exact Or.inl h.2
  | transform => exact h.symm.imp id fun hrandom => ⟨hrandom, rfl, rfl⟩
  | random | cache | matrixProduct | matrixVectorProduct | reduce => exact h.elim

theorem Plain.partOf {e y : ArrayExpression} (h : Plain e) (hy : PartOf y e) :
    Plain y ∨ Device.isRandom y = true := by
  rcases hy with rfl | hinside
  · exact Or.inl h
  · induction hinside with
    | child e i => exact (h.get i).imp id And.left
    | @deeper y e i hinside ih =>
        rcases h.get i with hget | ⟨hrandom, -⟩
        · exact ih hget
        · -- there is nothing in a random expression
          exfalso
          obtain ⟨i', -⟩ := inside_iff.mp hinside
          change Fin (e.get i).arity at i'
          cases hgot : e.get i with
          | random =>
              rw [hgot] at i'
              exact i'.elim0
          | tensor | value | cast | cache | unsqueeze | binary | matrixProduct
          | matrixVectorProduct | reduce | transform =>
              rw [hgot] at hrandom
              cases hrandom

theorem not_isRandom {e : ArrayExpression} (h : Plain e) : Device.isRandom e = false := by
  cases e with
  | random => exact h.elim
  | tensor | value | cast | cache | unsqueeze | binary | matrixProduct | matrixVectorProduct
  | reduce | transform => rfl

theorem Plain.productCompiles {e y : ArrayExpression} (h : Plain e) (hy : PartOf y e) :
    y.ProductCompiles := by
  rcases h.partOf hy with h | h
  · cases y with
    | matrixProduct | matrixVectorProduct => exact h.elim
    | tensor | value | random | cast | cache | unsqueeze | binary | reduce | transform => trivial
  · cases y with
    | random => trivial
    | tensor | value | cast | cache | unsqueeze | binary | matrixProduct | matrixVectorProduct
    | reduce | transform => cases h

/-- Parts of what is queued are what is queued itself, and parts of the expression. -/
theorem eq_or_partOf_of_cache {top y : ArrayExpression} (hy : PartOf y (Expr.cache top)) :
    y = .cache top ∨ PartOf y top := by
  unfold Expr.cache at hy
  split at hy
  · exact Or.inr hy
  · refine hy.imp id fun hinside => ?_
    obtain ⟨i, hpart⟩ := inside_iff.mp hinside
    exact hpart

section

variable {tops : List ArrayExpression} (hplain : ∀ top ∈ tops, Plain top)
include hplain

/-- No top-level expression is part of another one. -/
theorem inTime_of_plain (hcache : ∀ top ∈ tops, Expr.cache top = .cache top) : InTime tops := by
  intro before top after htops late hlate _ hinside
  exfalso
  have htop : top ∈ tops.map Expr.cache := by
    rw [htops]
    simp
  have hlate : late ∈ tops.map Expr.cache := by
    rw [htops]
    simp [hlate]
  obtain ⟨e, he, rfl⟩ := List.mem_map.mp htop
  obtain ⟨e', he', rfl⟩ := List.mem_map.mp hlate
  have hne := hinside.ne
  rw [hcache e he] at hne
  have hpart := (eq_or_partOf_of_cache hinside.partOf).resolve_left hne
  rw [hcache e' he'] at hpart
  rcases (hplain e he).partOf hpart with h | h
  · exact h
  · cases h

/-- What is random is an operand of a transform, which reads each of its elements once. -/
theorem get_of_partOf {top p : ArrayExpression} (htop : top ∈ tops) (hp : PartOf p (Expr.cache top))
    {i : Fin p.arity} (hrandom : Device.isRandom (p.get i) = true) :
    p.isComplex = true ∧ p.repeats i = 1 := by
  rcases eq_or_partOf_of_cache hp with rfl | hp
  · -- the operand of the cache is the top-level expression itself
    exact absurd (hrandom.symm.trans (not_isRandom (hplain top htop))) (by decide)
  · rcases (hplain top htop).partOf hp with h | h
    · rcases h.get i with hget | ⟨-, hcomplex⟩
      · exact absurd (hrandom.symm.trans (not_isRandom hget)) (by decide)
      · exact hcomplex
    · cases p with
      | random => exact i.elim0
      | tensor | value | cast | cache | unsqueeze | binary | matrixProduct | matrixVectorProduct
      | reduce | transform => cases h

/-- A route to a random expression goes no further than to the operand of a transform. -/
theorem eq_nil_of_route {q e y : ArrayExpression} {trace : Trace ArrayExpression}
    (hq : ∃ top ∈ tops, PartOf q (Expr.cache top)) (he : PartOf e q)
    (hroute : Route (generateExecutionCache tops) e trace y) (hy : Device.isRandom y = true)
    (hnot : e ∉ generateExecutionCache tops) : trace = [] := by
  obtain ⟨top, htop, hpart⟩ := hq
  induction hroute with
  | here => rfl
  | @step e y trace i hget hroute ih =>
      obtain rfl := ih ((Inside.child e i).partOf.trans he) hy hget
      cases hroute
      obtain ⟨hcomplex, -⟩ := get_of_partOf hplain htop (he.trans hpart) hy
      exact absurd (mem_plan_of_isComplex ⟨top, htop, he.trans hpart⟩ hcomplex) hnot

theorem randomOnce_of_plain : Device.RandomOnce tops := by
  intro q hq trace y hroute hy hnot
  obtain ⟨-, top, htop, hpart⟩ := partOf_of_mem_plan hq
  refine Or.inr ?_
  cases hroute with
  | here => exact absurd hq hnot
  | @step _ _ trace i hget hroute =>
      obtain rfl := eq_nil_of_route hplain ⟨top, htop, hpart⟩ (Inside.child q i).partOf hroute hy
        hget
      cases hroute
      obtain ⟨-, hrepeats⟩ := get_of_partOf hplain htop hpart hy
      show q.repeats i * 1 ≤ 1
      rw [hrepeats]

end

/-! ## The expressions of a circuit -/

section

variable {V : Type} {m : Interpretation V} {other : ArrayExpression → Position → Option V}
  {s : Shape} {n : ℕ} {left right : ArrayExpression} {l r : ℕ → V}

theorem compiles_binary (hl : HasElements m other left s n l) (hr : HasElements m other right s n r)
    (hleft : left.Compiles) (hright : right.Compiles) (operation : BinaryOperation) :
    (binary operation left right).Compiles := by
  have h := hl.binary hr operation
  have haccepts {e : ArrayExpression} {data : ℕ → V} (he : HasElements m other e s n data) :
      e.Accepts (binary operation left right).elementShape := by
    refine Or.inr ?_
    rw [elementShape_of_shape h.shape, elementShape_of_shape he.shape, h.vectorSize, he.vectorSize]
  exact ⟨Option.isSome_iff_exists.mpr ⟨s, h.shape⟩,
    Or.inr (Or.inr (hl.vectorSize.trans hr.vectorSize.symm)), haccepts hl, haccepts hr, hleft,
    hright⟩

theorem compiles_binary_value (hl : HasElements m other left s n l) (hleft : left.Compiles)
    (operation : BinaryOperation) (tag : ℕ) :
    (binary operation left (.value ⟨0, 0⟩ tag)).Compiles := by
  have h := hl.binary_value operation 0 tag
  refine ⟨Option.isSome_iff_exists.mpr ⟨s, h.shape⟩, Or.inr (Or.inl rfl), Or.inr ?_, Or.inl rfl,
    hleft, rfl⟩
  rw [elementShape_of_shape h.shape, elementShape_of_shape hl.shape, h.vectorSize, hl.vectorSize]

theorem compiles_value_binary (hr : HasElements m other right s n r) (hright : right.Compiles)
    (operation : BinaryOperation) (tag : ℕ) :
    (binary operation (.value ⟨0, 0⟩ tag) right).Compiles := by
  have h := hr.value_binary operation 0 tag
  refine ⟨Option.isSome_iff_exists.mpr ⟨s, h.shape⟩, Or.inl rfl, Or.inl rfl, Or.inr ?_, rfl,
    hright⟩
  rw [elementShape_of_shape h.shape, elementShape_of_shape hr.shape, h.vectorSize, hr.vectorSize]

end

theorem plain_expression (circuit : Circuit) (n : ℕ) (s : Shape) :
    Plain (circuit.expression n s).1 ∧ Plain (circuit.expression n s).2 := by
  induction circuit with
  | input x => exact ⟨trivial, trivial⟩
  | add left right hleft hright | subtract left right hleft hright =>
      exact ⟨⟨hleft.1, hright.1⟩, hleft.2, hright.2⟩
  | multiply left factor ih | scale left scalar ih => exact ⟨⟨ih.1, trivial⟩, ih.2, trivial⟩
  | multiplyLeft factor right ih | scaleLeft scalar right ih =>
      exact ⟨⟨trivial, ih.1⟩, trivial, ih.2⟩

theorem cache_expression (circuit : Circuit) (n : ℕ) (s : Shape) :
    Expr.cache (circuit.expression n s).1 = .cache (circuit.expression n s).1 ∧
      Expr.cache (circuit.expression n s).2 = .cache (circuit.expression n s).2 := by
  cases circuit with
  | input | add | subtract | multiply | multiplyLeft | scale | scaleLeft => exact ⟨rfl, rfl⟩

theorem compiles_expression {n : ℕ} (hn : n ≠ 0) (s : Shape) (circuit : Circuit) :
    (circuit.expression n s).1.Compiles ∧ (circuit.expression n s).2.Compiles := by
  -- the shapes do not depend on the elements
  let zero : ℕ → Ciphertext ℤ := fun _ => ⟨0, 0⟩
  let m : Interpretation ℤ := Circuit.interpretation zero 0 0
  have helements (circuit : Circuit) :
      HasElements m (fun _ _ => none) (circuit.expression n s).1 s n (circuit.value zero 0 0).c0 ∧
        HasElements m (fun _ _ => none) (circuit.expression n s).2 s n
          (circuit.value zero 0 0).c1 :=
    circuit.hasElements rfl rfl rfl hn
  have hfactor (i : ℕ) : HasElements m (fun _ _ => none) (operand n s (3 * i + 2)) s n _ :=
    HasElements.tensor hn 0 _
  induction circuit with
  | input x => exact ⟨trivial, trivial⟩
  | add left right hleft hright | subtract left right hleft hright =>
      exact ⟨compiles_binary (helements left).1 (helements right).1 hleft.1 hright.1 _,
        compiles_binary (helements left).2 (helements right).2 hleft.2 hright.2 _⟩
  | multiply left factor ih =>
      exact ⟨compiles_binary (helements left).1 (hfactor factor) ih.1 trivial _,
        compiles_binary (helements left).2 (hfactor factor) ih.2 trivial _⟩
  | multiplyLeft factor right ih =>
      exact ⟨compiles_binary (hfactor factor) (helements right).1 trivial ih.1 _,
        compiles_binary (hfactor factor) (helements right).2 trivial ih.2 _⟩
  | scale left scalar ih =>
      exact ⟨compiles_binary_value (helements left).1 ih.1 _ _,
        compiles_binary_value (helements left).2 ih.2 _ _⟩
  | scaleLeft scalar right ih =>
      exact ⟨compiles_value_binary (helements right).1 ih.1 _ _,
        compiles_value_binary (helements right).2 ih.2 _ _⟩

/-! ## A call -/

/-- A tensor that holds what its expression means has the elements of the expression. -/
theorem tensor_eq {V : Type} [Inhabited V] {m : Semantics V} {table : ArrayExpression × ℕ → V}
    {tensors : Tensors V} {tops : List ArrayExpression}
    (hmeaning : ∀ top ∈ tops, ∀ k < top.elementShape.counts.prod,
      tensors (Expr.cache top) k = top.meaning m table k)
    {e : ArrayExpression} {s : Shape} {n : ℕ} {data : ℕ → V}
    (he : HasElements m.toInterpretation (meant m table) e s n data) (htop : e ∈ tops)
    (hc : e.Compiles) (hn : n ≠ 0) {k : ℕ} (hk : k < s.size * n) :
    tensors (Expr.cache e) k = data k := by
  rw [hmeaning e htop k, he.meaning hc hn hk]
  rwa [elementShape_of_shape he.shape, he.vectorSize, prod_counts_elementShape hn]

variable {R G : Type} [CommRing R] [Inhabited R]

/-- A device computes on ciphertexts and polynomials as a circuit numbers them. In which order, and
what else it can do, is left open. -/
structure Computes (d : Device R G) (x : ℕ → Ciphertext R) (factors : ℕ → ℕ → R)
    (scalars : ℕ → R) : Prop where
  tensor : d.semantics.tensor = Circuit.tensor x factors
  value : d.semantics.value = scalars
  apply : d.semantics.apply = Lhe.apply

/-- `queue(circuit)`: both tensors of a circuit. -/
def queue (d : Device R G) (n : ℕ) (s : Shape) (circuit : Circuit) : Option (Ciphertext R) :=
  let e := circuit.expression n s
  (d.run [e.1, e.2]).map fun (tensors, _) => ⟨tensors (Expr.cache e.1), tensors (Expr.cache e.2)⟩

/-- A call leaves the value of the circuit. -/
theorem queue_eq {d : Device R G} {x : ℕ → Ciphertext R} {factors : ℕ → ℕ → R}
    {scalars : ℕ → R} (hd : Computes d x factors scalars) {n : ℕ} (hn : n ≠ 0) (s : Shape)
    (circuit : Circuit) :
    ∃ y, queue d n s circuit = some y ∧ ∀ k < s.size * n,
      y.c0 k = (circuit.value x factors scalars).c0 k ∧
        y.c1 k = (circuit.value x factors scalars).c1 k := by
  obtain ⟨hplain0, hplain1⟩ := plain_expression circuit n s
  obtain ⟨hcompiles0, hcompiles1⟩ := compiles_expression hn s circuit
  have hplain : ∀ top ∈ [(circuit.expression n s).1, (circuit.expression n s).2], Plain top := by
    simp [hplain0, hplain1]
  have hcache : ∀ top ∈ [(circuit.expression n s).1, (circuit.expression n s).2],
      Expr.cache top = .cache top := by
    obtain ⟨h0, h1⟩ := cache_expression circuit n s
    simp [h0, h1]
  obtain ⟨tensors, drawn, table, hrun, -, hmeaning⟩ :=
    Device.exists_table_run d [(circuit.expression n s).1, (circuit.expression n s).2]
      (by simp [hcompiles0, hcompiles1])
      (fun top htop y => (hplain top htop).productCompiles)
      (inTime_of_plain hplain hcache) (randomOnce_of_plain hplain)
  obtain ⟨helements0, helements1⟩ := circuit.hasElements (s := s) (n := n) hd.tensor hd.value
    hd.apply hn
  exact ⟨_, Option.map_eq_some_iff.mpr ⟨_, hrun, rfl⟩, fun k hk =>
    ⟨tensor_eq hmeaning helements0 (by simp) hcompiles0 hn hk,
      tensor_eq hmeaning helements1 (by simp) hcompiles1 hn hk⟩⟩

/-! ## Programs -/

/-- A call of a program: a circuit, the number that its ciphertext gets, and the device, for the
ciphertexts that there are. -/
structure Call (R G : Type) where
  circuit : Circuit
  target : ℕ
  device : (ℕ → Ciphertext R) → Device R G

def Call.run (n : ℕ) (s : Shape) (x : ℕ → Ciphertext R) (call : Call R G) :
    Option (ℕ → Ciphertext R) :=
  (queue (call.device x) n s call.circuit).map fun y => Function.update x call.target y

/-- The ciphertexts after the calls of a program. -/
def run (n : ℕ) (s : Shape) (program : List (Call R G)) (x : ℕ → Ciphertext R) :
    Option (ℕ → Ciphertext R) :=
  program.foldlM (Call.run n s) x

def Call.circuits (σ : ℕ → Circuit) (call : Call R G) : ℕ → Circuit :=
  Function.update σ call.target (call.circuit.substitute σ)

/-- What a program computes, as one circuit for each of its ciphertexts. -/
def circuits (program : List (Call R G)) : ℕ → Circuit := program.foldl Call.circuits .input

section

variable {memory : ℕ → BitVec 32} {P Q : Modulus} {L : ℕ} {c : Compiled memory P Q L}
  {key : KeyPair c} {shape : Shape} {representation : Representation}
  {x : ℕ → Encryption key shape representation} {r : ℕ → ℕ → ℤ}
  {transformedR : ℕ → ℕ → Residue 32 Q} {scalars : ℕ → ℤ}

instance inhabitedResidue : Inhabited (Residue 32 Q) := ⟨0⟩

/-- Each ciphertext has the phase of its circuit. -/
def HasPhases (c : Compiled memory P Q L) (key : KeyPair c) (x : ℕ → Encryption key shape
    representation) (r : ℕ → ℕ → ℤ) (scalars : ℕ → ℤ) (σ : ℕ → Circuit)
    (y : ℕ → Ciphertext (Residue 32 Q)) : Prop :=
  ∀ j, HasPhase c key.secret shape.size (y j) ((σ j).phase x r scalars)

theorem phase_substitute (σ : ℕ → Circuit) (circuit : Circuit) (i : ℕ) :
    (circuit.substitute σ).phase x r scalars i =
      circuit.eval (fun j => (σ j).phase x r scalars i) (fun j => polynomial L (r j) i)
        fun j => C (scalars j) :=
  Circuit.eval_substitute _ _ _ σ circuit

variable (htwo : 2 ≤ L) (hL : L < 32) (hQ : Q.toNat.Prime)
  (hr : ∀ j, IsTransform c.ciphertext shape.size (fun k => r j k) (transformedR j))
include htwo hL hQ hr

/-- One call: the new ciphertext has the phase of the circuit that is substituted, and the others
are left. -/
theorem hasPhases_call {call : Call (Residue 32 Q) G}
    (hdevice : ∀ y, Computes (call.device y) y transformedR fun j => scalars j)
    {σ : ℕ → Circuit} {y : ℕ → Ciphertext (Residue 32 Q)}
    (h : HasPhases c key x r scalars σ y) :
    ∃ y', call.run (2 ^ L) shape y = some y' ∧
      HasPhases c key x r scalars (call.circuits σ) y' := by
  obtain ⟨z, hz, hvalue⟩ := queue_eq (hdevice y) (Nat.two_pow_pos L).ne' shape call.circuit
  refine ⟨_, Option.map_eq_some_iff.mpr ⟨z, hz, rfl⟩, fun j => ?_⟩
  by_cases hj : j = call.target
  · subst hj
    rw [Function.update_self, Call.circuits, Function.update_self]
    have hphase : HasPhase c key.secret shape.size
        (call.circuit.value y transformedR fun j => scalars j) _ :=
      call.circuit.hasPhase h fun i => (hr i).slots_reduce htwo hL hQ
    refine Slots.congr hphase (fun k hk => ?_) fun i _ _ => ?_
    · rw [(hvalue k hk).1, (hvalue k hk).2]
    · rw [phase_substitute]
  · rw [Function.update_of_ne hj, Call.circuits, Function.update_of_ne hj]
    exact h j

/-- A whole program, by induction on its calls. -/
theorem hasPhases_run (program : List (Call (Residue 32 Q) G))
    (hdevices : ∀ call ∈ program, ∀ y,
      Computes (call.device y) y transformedR fun j => scalars j) :
    ∀ {σ : ℕ → Circuit} {y : ℕ → Ciphertext (Residue 32 Q)}, HasPhases c key x r scalars σ y →
      ∃ y', run (2 ^ L) shape program y = some y' ∧
        HasPhases c key x r scalars (program.foldl Call.circuits σ) y' := by
  induction program with
  | nil => exact fun h => ⟨_, rfl, h⟩
  | cons call program ih =>
      intro σ y h
      obtain ⟨y', hy', h'⟩ := hasPhases_call htwo hL hQ hr (hdevices call List.mem_cons_self) h
      obtain ⟨y'', hy'', h''⟩ := ih (fun call hcall => hdevices call (List.mem_cons_of_mem _ hcall))
        h'
      exact ⟨y'', by rw [run, List.foldlM_cons, hy']; exact hy'', h''⟩

end

/-- **Programs of homomorphic operations.** Whatever the devices do in which order, the calls of a
program come to an end, and each ciphertext they leave decrypts to the circuit that the program has
computed for it, as long as the phase of this circuit does not wrap around. -/
theorem queue_evaluates_programs {memory : ℕ → BitVec 32} {P Q : Modulus} {L : ℕ} (htwo : 2 ≤ L)
    (hL : L < 32) (hP : P.toNat.Prime) (hQ : Q.toNat.Prime) {c : Compiled memory P Q L}
    {key : KeyPair c} {shape : Shape} {representation : Representation}
    (x : ℕ → Encryption key shape representation) (r : ℕ → ℕ → ℤ)
    (transformedR : ℕ → ℕ → Residue 32 Q) (scalars : ℕ → ℤ)
    (hr : ∀ j, IsTransform c.ciphertext shape.size (fun k => r j k) (transformedR j))
    (program : List (Call (Residue 32 Q) G))
    (hdevices : ∀ call ∈ program, ∀ y,
      Computes (call.device y) y transformedR fun j => scalars j)
    (launches : Launches P Q) (hruns : launches.Runs (2 ^ L) shape.size) :
    ∃ y, run (2 ^ L) shape program (fun j => (x j).ciphertext) = some y ∧
      ∀ j, (∀ i < shape.size,
        Bounded Q ((circuits program j).phase x r scalars i %ₘ (X ^ 2 ^ L + 1))) →
        (circuits program j).Decrypts x r scalars launches (c.decrypt shape representation launches
          (operands key.secret (y j) (y j) fun _ => 0) (first (2 ^ L) shape)) := by
  have hstart : HasPhases c key x r scalars .input fun j => (x j).ciphertext :=
    fun j => (x j).hasPhase htwo hL hQ
  obtain ⟨y, hy, h⟩ := hasPhases_run htwo hL hQ hr program hdevices hstart
  exact ⟨y, hy, fun j hbounded => Circuit.decrypts_of_hasPhase htwo hL hP hQ hruns (h j) hbounded⟩

theorem perm_reverse (_ : ArrayExpression) (size : ℕ) :
    (List.range size).reverse.Perm (List.range size) :=
  List.reverse_perm _

/-- A device whose work items run from the last one on. -/
def fromLast (factors : ℕ → ℕ → R) (scalars : ℕ → ℤ) (x : ℕ → Ciphertext R) : Device R Unit where
  semantics := {
    tensor := Circuit.tensor x factors
    value := fun j => scalars j
    cast := fun _ v => v
    apply := Lhe.apply
    reduce := fun _ values => values.sum
    transform := fun _ _ values k => values.getD k 0 }
  draw := fun _ _ g => (0, g)
  generator := fun _ _ => ()
  order := fun _ size => (List.range size).reverse
  order_perm := perm_reverse
  combine := fun _ a b => a + b
  identity := fun _ => 0
  grouping := fun _ => Grouping.ofList
  grouping_values := fun _ values => List.Perm.of_eq (Grouping.values_ofList values)
  eval_eq := fun _ => Device.eval_add

/-- The first ciphertext times `X`, and in a second call the difference to the next one. -/
def inTwoCalls (device : (ℕ → Ciphertext R) → Device R G) : List (Call R G) :=
  [⟨.multiplyLeft 0 (.input 0), 2, device⟩, ⟨.subtract (.input 2) (.input 1), 3, device⟩]

omit [Inhabited R] in
theorem computes_inTwoCalls (factors : ℕ → ℕ → R) (scalars : ℕ → ℤ) :
    ∀ call ∈ inTwoCalls (fromLast factors scalars), ∀ y,
      Computes (call.device y) y factors fun j => scalars j := by
  intro call hcall y
  simp only [inTwoCalls, List.mem_cons, List.not_mem_nil, or_false] at hcall
  rcases hcall with rfl | rfl
  · exact ⟨rfl, rfl, rfl⟩
  · exact ⟨rfl, rfl, rfl⟩

theorem queue_evaluates_programs_seventeen :
    ∃ (c : Compiled (fun _ => 0) seventeen ninetySeven 2) (key : KeyPair c)
      (x : ℕ → Encryption key [.dynamic 2] .numberTheoreticTransform)
      (transformedR : ℕ → ℕ → Residue 32 ninetySeven) (y : ℕ → Ciphertext (Residue 32 ninetySeven)),
      (∀ j k, (x j).plaintext k = (j + k : ℕ)) ∧
        run (2 ^ 2) [.dynamic 2] (inTwoCalls (fromLast transformedR 0))
          (fun j => (x j).ciphertext) = some y ∧
        shifted.Decrypts x (fun _ k => if k % 4 = 1 then 1 else 0) 0
          ⟨items _ 4, items _ 4⟩ (c.decrypt [.dynamic 2] .numberTheoreticTransform
            ⟨items _ 4, items _ 4⟩ (operands key.secret (y 3) (y 3) fun _ => 0)
            (first (2 ^ 2) [.dynamic 2])) := by
  obtain ⟨c, key, x, hplaintext, hx⟩ := exists_within_seventeen
  let transformedR : ℕ → ℕ → Residue 32 ninetySeven := fun j =>
    forward 2 (Shape.size [.dynamic 2]) c.ciphertext.root (items ninetySeven 4) fun k =>
      ((if k % 4 = 1 then 1 else 0 : ℤ) : Residue 32 ninetySeven)
  obtain ⟨y, hy, h⟩ := queue_evaluates_programs le_rfl (by decide) (by decide) (by decide) x
    (fun _ k => if k % 4 = 1 then 1 else 0) transformedR 0
    (fun j => ⟨items ninetySeven 4, runs_seventeen.2, fun _ _ => rfl⟩)
    (inTwoCalls (fromLast transformedR 0)) (computes_inTwoCalls _ _) _ runs_seventeen
  exact ⟨c, key, x, transformedR, y, hplaintext, hy, h 3 fun i hi =>
    shifted.bounded_phase hx (fun _ k _ => abs_monomial_le k) (by decide) hi⟩

end Hmpc.Comp.Evaluation
