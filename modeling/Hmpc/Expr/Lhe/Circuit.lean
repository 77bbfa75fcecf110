/-
# Hmpc.Expr.Lhe.Circuit -- what is computed on ciphertexts is computed on plaintexts

The operators of ciphertexts nest: a circuit adds and subtracts ciphertexts and multiplies them with
polynomials and with scalars, from either side, to any depth and in one expression. A circuit has a
value in every ring. In the integer polynomials this is the phase of its ciphertext, and modulo the
plaintext modulus it is what the ciphertext decrypts to: `homomorphic_evaluation`.
-/
import Hmpc.Expr.Lhe
import Hmpc.Lib.CoefficientBound

namespace Hmpc.Expr.Lhe

open Hmpc.Core Hmpc.Ints Hmpc.Lib Hmpc.Lib.Negacyclic NumberTheoreticTransform ArrayExpression
  Polynomial

/-! ## Circuits -/

/-- What the operators of `ciphertext_expression` make of ciphertexts, of tensors of polynomials and
of scalars, each with a number of its own. -/
inductive Circuit
  | input (x : ℕ)
  | add (left right : Circuit)
  | subtract (left right : Circuit)
  | multiply (left : Circuit) (factor : ℕ)
  | multiplyLeft (factor : ℕ) (right : Circuit)
  | scale (left : Circuit) (scalar : ℕ)
  | scaleLeft (scalar : ℕ) (right : Circuit)

namespace Circuit

/-- The pair of expressions of a circuit, over polynomials of `n` coefficients in shape `s`. -/
def expression (n : ℕ) (s : Shape) : Circuit → ArrayExpression × ArrayExpression
  | input x => (operand n s (3 * x), operand n s (3 * x + 1))
  | add left right => Lhe.add (left.expression n s) (right.expression n s)
  | subtract left right => Lhe.subtract (left.expression n s) (right.expression n s)
  | multiply left factor => Lhe.multiply (left.expression n s) (operand n s (3 * factor + 2))
  | multiplyLeft factor right =>
      Lhe.multiplyLeft (operand n s (3 * factor + 2)) (right.expression n s)
  | scale left scalar => Lhe.multiply (left.expression n s) (.value ⟨0, 0⟩ scalar)
  | scaleLeft scalar right => Lhe.multiplyLeft (.value ⟨0, 0⟩ scalar) (right.expression n s)

/-- The value of a circuit in a ring. -/
def eval {A : Type*} [CommRing A] (inputs factors scalars : ℕ → A) : Circuit → A
  | input x => inputs x
  | add left right => left.eval inputs factors scalars + right.eval inputs factors scalars
  | subtract left right => left.eval inputs factors scalars - right.eval inputs factors scalars
  | multiply left factor => factors factor * left.eval inputs factors scalars
  | multiplyLeft factor right => factors factor * right.eval inputs factors scalars
  | scale left scalar => scalars scalar * left.eval inputs factors scalars
  | scaleLeft scalar right => scalars scalar * right.eval inputs factors scalars

/-- Evaluation commutes with homomorphisms. -/
theorem map_eval {A B : Type*} [CommRing A] [CommRing B] (φ : A →+* B)
    (inputs factors scalars : ℕ → A) (circuit : Circuit) :
    φ (circuit.eval inputs factors scalars) =
      circuit.eval (fun x => φ (inputs x)) (fun j => φ (factors j)) fun j => φ (scalars j) := by
  induction circuit with
  | input x => rfl
  | add left right hleft hright => rw [eval, map_add, hleft, hright, eval]
  | subtract left right hleft hright => rw [eval, map_sub, hleft, hright, eval]
  | multiply left factor ih => rw [eval, map_mul, ih, eval]
  | multiplyLeft factor right ih => rw [eval, map_mul, ih, eval]
  | scale left scalar ih => rw [eval, map_mul, ih, eval]
  | scaleLeft scalar right ih => rw [eval, map_mul, ih, eval]

/-- A circuit whose inputs are circuits. -/
def substitute (σ : ℕ → Circuit) : Circuit → Circuit
  | input x => σ x
  | add left right => add (left.substitute σ) (right.substitute σ)
  | subtract left right => subtract (left.substitute σ) (right.substitute σ)
  | multiply left factor => multiply (left.substitute σ) factor
  | multiplyLeft factor right => multiplyLeft factor (right.substitute σ)
  | scale left scalar => scale (left.substitute σ) scalar
  | scaleLeft scalar right => scaleLeft scalar (right.substitute σ)

theorem eval_substitute {A : Type*} [CommRing A] (inputs factors scalars : ℕ → A)
    (σ : ℕ → Circuit) (circuit : Circuit) :
    (circuit.substitute σ).eval inputs factors scalars =
      circuit.eval (fun x => (σ x).eval inputs factors scalars) factors scalars := by
  induction circuit with
  | input x => rfl
  | add left right hleft hright | subtract left right hleft hright =>
      rw [substitute, eval, hleft, hright, eval]
  | multiply left factor ih | multiplyLeft factor right ih =>
      rw [substitute, eval, ih, eval]
  | scale left scalar ih | scaleLeft scalar right ih =>
      rw [substitute, eval, ih, eval]

section

variable {R : Type} [CommRing R] (x : ℕ → Ciphertext R) (factors : ℕ → ℕ → R) (scalars : ℕ → R)

omit [CommRing R] in
/-- Three tensors for each number, two of a ciphertext and one of polynomials. -/
def tensor (tag : ℕ) : ℕ → R :=
  if tag % 3 = 0 then (x (tag / 3)).c0
  else if tag % 3 = 1 then (x (tag / 3)).c1
  else factors (tag / 3)

/-- The tensors and values of a circuit. -/
def interpretation : Interpretation R :=
  ⟨tensor x factors, scalars, fun _ value => value, apply⟩

/-- `queue(circuit)`: the tensors that the queue evaluates a circuit to. -/
def evaluate (n : ℕ) (s : Shape) (circuit : Circuit) : Ciphertext R :=
  ⟨elements (interpretation x factors scalars) (circuit.expression n s).1,
    elements (interpretation x factors scalars) (circuit.expression n s).2⟩

/-- The elements of a circuit. -/
def value : Circuit → Ciphertext R
  | input i => x i
  | add left right => left.value.add right.value
  | subtract left right => left.value.sub right.value
  | multiply left factor => left.value.mul (factors factor)
  | multiplyLeft factor right => right.value.mul (factors factor)
  | scale left scalar => left.value.mul fun _ => scalars scalar
  | scaleLeft scalar right => right.value.mul fun _ => scalars scalar

omit [CommRing R] in
theorem tensor_eq (i : ℕ) : tensor x factors (3 * i) = (x i).c0 ∧
    tensor x factors (3 * i + 1) = (x i).c1 ∧ tensor x factors (3 * i + 2) = factors i := by
  unfold tensor
  refine ⟨?_, ?_, ?_⟩
  · rw [if_pos (by omega), show 3 * i / 3 = i by omega]
  · rw [if_neg (by omega), if_pos (by omega), show (3 * i + 1) / 3 = i by omega]
  · rw [if_neg (by omega), if_neg (by omega), show (3 * i + 2) / 3 = i by omega]

variable {s : Shape} {n : ℕ}

variable {x factors scalars} in
/-- Both parts of a circuit have the elements of its value. -/
theorem hasElements {m : Interpretation R} {other : ArrayExpression → Position → Option R}
    (htensor : m.tensor = tensor x factors) (hvalue : m.value = scalars) (happly : m.apply = apply)
    (hn : n ≠ 0) (circuit : Circuit) :
    HasElements m other (circuit.expression n s).1 s n (circuit.value x factors scalars).c0 ∧
      HasElements m other (circuit.expression n s).2 s n
        (circuit.value x factors scalars).c1 := by
  obtain ⟨_, values, cast, _⟩ := m
  subst htensor hvalue happly
  have hoperand (tag : ℕ) : HasElements ⟨tensor x factors, values, cast, apply⟩ other
      (operand n s tag) s n (tensor x factors tag) :=
    HasElements.tensor hn 0 tag
  have hfactor (i : ℕ) : HasElements ⟨tensor x factors, values, cast, apply⟩ other
      (operand n s (3 * i + 2)) s n (factors i) := by
    rw [← (tensor_eq x factors i).2.2]
    exact hoperand _
  have hcomm (y : Ciphertext R) (r : ℕ → R) :
      y.mul r = ⟨fun k => r k * y.c0 k, fun k => r k * y.c1 k⟩ := by
    simp only [Ciphertext.mul, mul_comm]
  induction circuit with
  | input i =>
      obtain ⟨hc0, hc1, -⟩ := tensor_eq x factors i
      rw [value, ← hc0, ← hc1]
      exact ⟨hoperand _, hoperand _⟩
  | add left right hleft hright =>
      exact ⟨hleft.1.binary hright.1 .add, hleft.2.binary hright.2 .add⟩
  | subtract left right hleft hright =>
      exact ⟨hleft.1.binary hright.1 .subtract, hleft.2.binary hright.2 .subtract⟩
  | multiply left factor ih =>
      exact ⟨ih.1.binary (hfactor factor) .multiply, ih.2.binary (hfactor factor) .multiply⟩
  | multiplyLeft factor right ih =>
      rw [value, hcomm]
      exact ⟨(hfactor factor).binary ih.1 .multiply, (hfactor factor).binary ih.2 .multiply⟩
  | scale left scalar ih =>
      exact ⟨ih.1.binary_value .multiply 0 scalar, ih.2.binary_value .multiply 0 scalar⟩
  | scaleLeft scalar right ih =>
      rw [value, hcomm]
      exact ⟨ih.1.value_binary .multiply 0 scalar, ih.2.value_binary .multiply 0 scalar⟩

/-- The queue computes the value of a circuit. -/
theorem evaluate_eq (hn : n ≠ 0) (circuit : Circuit) {k : ℕ} (hk : k < s.size * n) :
    (circuit.evaluate x factors scalars n s).c0 k = (circuit.value x factors scalars).c0 k ∧
      (circuit.evaluate x factors scalars n s).c1 k =
        (circuit.value x factors scalars).c1 k := by
  have h (e : ArrayExpression) (data : ℕ → R) (helements : HasElements
      (interpretation x factors scalars) (fun _ _ => none) e s n data) := elements_eq helements hk
  obtain ⟨hc0, hc1⟩ := circuit.hasElements (m := interpretation x factors scalars) rfl rfl rfl hn
  exact ⟨h _ _ hc0, h _ _ hc1⟩

end

/-! ## Phases -/

section

variable {memory : ℕ → BitVec 32} {P Q : Modulus} {L m : ℕ} {c : Compiled memory P Q L}
  {secret : ℕ → Residue 32 Q} {x : ℕ → Ciphertext (Residue 32 Q)}
  {factors : ℕ → ℕ → Residue 32 Q} {scalars : ℕ → ℤ} {phases polynomials : ℕ → ℕ → ℤ[X]}

/-- The phase of a circuit is its value in the integer polynomials. -/
theorem hasPhase (hx : ∀ i, HasPhase c secret m (x i) (phases i))
    (hfactors : ∀ i, Slots L m c.ciphertext.root (factors i) fun j => reduce Q (polynomials i j))
    (circuit : Circuit) :
    HasPhase c secret m (circuit.value x factors fun i => scalars i) fun j =>
      circuit.eval (fun i => phases i j) (fun i => polynomials i j) fun i => C (scalars i) := by
  have hscalar (i : ℕ) : Slots L m c.ciphertext.root (fun _ => (scalars i : Residue 32 Q))
      fun _ => reduce Q (C (scalars i)) := by
    intro j _ k _
    rw [reduce, coe_mapRingHom, map_C, eval_C]
    rfl
  induction circuit with
  | input i => exact hx i
  | add left right hleft hright => exact hleft.add hright
  | subtract left right hleft hright => exact hleft.sub hright
  | multiply left factor ih => exact ih.mul (hfactors factor)
  | multiplyLeft factor right ih => exact ih.mul (hfactors factor)
  | scale left scalar ih => exact ih.mul (hscalar scalar)
  | scaleLeft scalar right ih => exact ih.mul (hscalar scalar)

/-! ## Noise -/

/-- How large the coefficients of a circuit get, from those of its inputs and of its factors. -/
def noise (n : ℤ) (inputs factors scalars : ℕ → ℤ) : Circuit → ℤ
  | input x => inputs x
  | add left right | subtract left right =>
      left.noise n inputs factors scalars + right.noise n inputs factors scalars
  | multiply left factor => n * (factors factor * left.noise n inputs factors scalars)
  | multiplyLeft factor right => n * (factors factor * right.noise n inputs factors scalars)
  | scale left scalar => |scalars scalar| * left.noise n inputs factors scalars
  | scaleLeft scalar right => |scalars scalar| * right.noise n inputs factors scalars

theorem bound_mul {f g : ℤ[X]} {A B : ℤ} (hA : 0 ≤ A) (hf : Bound A f)
    (hdegree : f.degree < (2 ^ L : ℕ)) (hg : Bound B (g %ₘ (X ^ 2 ^ L + 1))) :
    Bound ((2 ^ L : ℕ) * (A * B)) ((f * g) %ₘ (X ^ 2 ^ L + 1)) := by
  have hproduct : (f * g) %ₘ (X ^ 2 ^ L + 1) =
      (f * (g %ₘ (X ^ 2 ^ L + 1))) %ₘ (X ^ 2 ^ L + 1) := by
    rw [mul_modByMonic, modByMonic_of_degree_lt hdegree]
  rw [hproduct]
  exact hf.mul_modByMonic (Nat.two_pow_pos L) hA hg hdegree (degree_modByMonic_negacyclic_lt g)

theorem bound_scale {g : ℤ[X]} {B : ℤ} (a : ℤ) (hg : Bound B (g %ₘ (X ^ 2 ^ L + 1))) :
    Bound (|a| * B) ((C a * g) %ₘ (X ^ 2 ^ L + 1)) := by
  rw [← smul_eq_C_mul, smul_modByMonic, smul_eq_C_mul]
  exact hg.C_mul a

theorem bound_polynomial {z : ℕ → ℤ} {i : ℕ} {B : ℤ} (hB : 0 ≤ B)
    (hz : ∀ j < 2 ^ L, |z (j + i * 2 ^ L)| ≤ B) : Bound B (polynomial L z i) :=
  bound_element hB hz

/-- The noise of a circuit, by induction on it. -/
theorem bound_eval {f g : ℕ → ℤ[X]} {inputs bounds : ℕ → ℤ}
    (hf : ∀ j, Bound (inputs j) (f j %ₘ (X ^ 2 ^ L + 1)))
    (hpos : ∀ j, 0 ≤ bounds j) (hg : ∀ j, Bound (bounds j) (g j))
    (hdegree : ∀ j, (g j).degree < (2 ^ L : ℕ)) (circuit : Circuit) :
    Bound (circuit.noise (2 ^ L : ℕ) inputs bounds scalars)
      (circuit.eval f g (fun j => C (scalars j)) %ₘ (X ^ 2 ^ L + 1)) := by
  induction circuit with
  | input x => exact hf x
  | add left right hleft hright =>
      rw [eval, add_modByMonic]
      exact hleft.add hright
  | subtract left right hleft hright =>
      rw [eval, sub_modByMonic]
      exact hleft.sub hright
  | multiply left factor ih => exact bound_mul (hpos factor) (hg factor) (hdegree factor) ih
  | multiplyLeft factor right ih => exact bound_mul (hpos factor) (hg factor) (hdegree factor) ih
  | scale left scalar ih => exact bound_scale _ ih
  | scaleLeft scalar right ih => exact bound_scale _ ih

end

end Circuit

/-! ## Homomorphic evaluation -/

section

variable {memory : ℕ → BitVec 32} {P Q : Modulus} {L : ℕ}

/-- Bounds on the coefficients of a key, and of the randomness of an encryption. -/
structure NoiseBounds where
  s : ℤ
  e : ℤ
  u : ℤ
  v : ℤ
  w : ℤ

/-- The noise of a fresh ciphertext, for polynomials of `n` coefficients and the plaintext modulus
`p`. -/
def NoiseBounds.fresh (b : NoiseBounds) (n p : ℤ) : ℤ :=
  p * (n * (b.e * b.u) + b.v + n * (b.s * b.w)) + (p - 1) / 2

/-- A key and an encryption keep the bounds. -/
structure Encryption.Within {c : Compiled memory P Q L} {key : KeyPair c} {shape : Shape}
    {representation : Representation} (x : Encryption key shape representation)
    (b : NoiseBounds) : Prop where
  s : ∀ k < 2 ^ L, |key.s k| ≤ b.s
  e : ∀ k < 2 ^ L, |key.e k| ≤ b.e
  u : ∀ k < shape.size * 2 ^ L, |x.u k| ≤ b.u
  v : ∀ k < shape.size * 2 ^ L, |x.v k| ≤ b.v
  w : ∀ k < shape.size * 2 ^ L, |x.w k| ≤ b.w

/-- The phase of a fresh ciphertext. -/
theorem Encryption.Within.bound_phase {c : Compiled memory P Q L} {key : KeyPair c}
    {shape : Shape} {representation : Representation} {x : Encryption key shape representation}
    {b : NoiseBounds} (h : x.Within b) {i : ℕ} (hi : i < shape.size) :
    Bound (b.fresh (2 ^ L : ℕ) P.toNat) (x.phase i %ₘ (X ^ 2 ^ L + 1)) := by
  have hpos := Nat.two_pow_pos L
  have hvector {z : ℕ → ℤ} {B : ℤ} (hz : ∀ k < 2 ^ L, |z k| ≤ B) :
      Bound B (polynomial L z 0) ∧ 0 ≤ B := by
    have hB := (abs_nonneg _).trans (hz 0 hpos)
    exact ⟨Circuit.bound_polynomial hB fun j hj => by simpa using hz j hj, hB⟩
  have hrow {z : ℕ → ℤ} {B : ℤ} (hz : ∀ k < shape.size * 2 ^ L, |z k| ≤ B) :
      Bound B (polynomial L z i %ₘ (X ^ 2 ^ L + 1)) := by
    rw [modByMonic_of_degree_lt (degree_polynomial_lt z i)]
    exact Circuit.bound_polynomial ((abs_nonneg _).trans (hz _ (position_of_lt hi hpos)))
      fun j hj => hz _ (position_of_lt hi hj)
  have hcentered : Bound (((P.toNat : ℤ) - 1) / 2)
      (polynomial L x.centered i %ₘ (X ^ 2 ^ L + 1)) :=
    hrow fun k _ => abs_le.mpr (Mod.valMinAbs_bounds _)
  obtain ⟨hs, hs₀⟩ := hvector h.s
  obtain ⟨he, he₀⟩ := hvector h.e
  have heu := Circuit.bound_mul he₀ he (degree_polynomial_lt _ 0) (hrow h.u)
  have hsw := Circuit.bound_mul hs₀ hs (degree_polynomial_lt _ 0) (hrow h.w)
  have hnoise := Circuit.bound_scale (P.toNat : ℤ) (g := polynomial L key.e 0 * polynomial L x.u i +
    polynomial L x.v i - polynomial L key.s 0 * polynomial L x.w i) (by
      rw [sub_modByMonic, add_modByMonic]
      exact (heu.add (hrow h.v)).sub hsw)
  rw [phase_modByMonic, Encryption.phase, add_modByMonic, ← C_eq_natCast, NoiseBounds.fresh]
  rw [abs_of_nonneg (Int.natCast_nonneg _)] at hnoise
  exact hnoise.add hcentered

/-- The integer polynomial that a circuit of encryptions stands for. -/
noncomputable def Circuit.phase {c : Compiled memory P Q L} {key : KeyPair c} {shape : Shape}
    {representation : Representation} (x : ℕ → Encryption key shape representation)
    (r : ℕ → ℕ → ℤ) (scalars : ℕ → ℤ) (circuit : Circuit) (i : ℕ) : ℤ[X] :=
  circuit.eval (fun j => (x j).phase i) (fun j => polynomial L (r j) i) fun j => C (scalars j)

/-- The phase of a circuit does not wrap around if the parameters leave room for its noise. -/
theorem Circuit.bounded_phase {c : Compiled memory P Q L} {key : KeyPair c} {shape : Shape}
    {representation : Representation} {x : ℕ → Encryption key shape representation}
    {b : NoiseBounds} (hx : ∀ j, (x j).Within b) {r : ℕ → ℕ → ℤ} {bounds : ℕ → ℤ}
    (hr : ∀ j, ∀ k < shape.size * 2 ^ L, |r j k| ≤ bounds j) {scalars : ℕ → ℤ} {circuit : Circuit}
    (hnoise : circuit.noise (2 ^ L : ℕ) (fun _ => b.fresh (2 ^ L : ℕ) P.toNat) bounds scalars ≤
      ((Q.toNat : ℤ) - 1) / 2) {i : ℕ} (hi : i < shape.size) :
    Bounded Q (circuit.phase x r scalars i %ₘ (X ^ 2 ^ L + 1)) := by
  have hbounds (j : ℕ) : 0 ≤ bounds j :=
    (abs_nonneg _).trans (hr j _ (position_of_lt hi (Nat.two_pow_pos L)))
  have hphase : Bound _ (circuit.phase x r scalars i %ₘ (X ^ 2 ^ L + 1)) :=
    circuit.bound_eval (fun j => (hx j).bound_phase hi) hbounds
      (fun j => bound_polynomial (hbounds j) fun k hk => hr j _ (position_of_lt hi hk))
      fun j => degree_polynomial_lt _ i
  exact hphase.mono hnoise

/-- `dec<Plaintext>(key, ciphertext(queue(circuit)))` -/
def Circuit.decrypt {c : Compiled memory P Q L} {key : KeyPair c} {shape : Shape}
    {representation : Representation} (x : ℕ → Encryption key shape representation)
    (transformedR : ℕ → ℕ → Residue 32 Q) (scalars : ℕ → ℤ) (launches : Launches P Q)
    (circuit : Circuit) : ℕ → Residue 32 P :=
  let y := circuit.evaluate (fun j => (x j).ciphertext) transformedR (fun j => scalars j) (2 ^ L)
    shape
  c.decrypt shape representation launches (operands key.secret y y fun _ => 0)
    (first (2 ^ L) shape)

/-- What decryption promises for a circuit: the circuit has been computed on the plaintexts, as
polynomials modulo `X ^ n + 1`, and slot by slot if the plaintexts are transforms. -/
structure Circuit.Decrypts {c : Compiled memory P Q L} {key : KeyPair c} {shape : Shape}
    {representation : Representation} (x : ℕ → Encryption key shape representation)
    (r : ℕ → ℕ → ℤ) (scalars : ℕ → ℤ) (launches : Launches P Q) (circuit : Circuit)
    (decrypted : ℕ → Residue 32 P) : Prop where
  polynomials : ∀ i < shape.size,
    polynomial L (c.coefficients shape representation launches decrypted) i =
      circuit.eval (fun j => polynomial L (x j).coefficients i)
        (fun j => reduce P (polynomial L (r j) i)) (fun j => C (scalars j : Residue 32 P)) %ₘ
          (X ^ 2 ^ L + 1)
  slots : representation = .numberTheoreticTransform →
    ∀ factors : ℕ → ℕ → Residue 32 P,
      (∀ j, IsTransform c.plaintext shape.size (fun k => r j k) (factors j)) →
        ∀ k < shape.size * 2 ^ L, decrypted k = circuit.eval (fun j => (x j).plaintext k)
          (fun j => factors j k) fun j => scalars j

section

variable {c : Compiled memory P Q L} {key : KeyPair c} {shape : Shape}
  {representation : Representation} {x : ℕ → Encryption key shape representation}
  {r : ℕ → ℕ → ℤ} {transformedR : ℕ → ℕ → Residue 32 Q} {scalars : ℕ → ℤ}

/-- The tensors of a circuit have the phase of the circuit. -/
theorem Circuit.hasPhase_evaluate (htwo : 2 ≤ L) (hL : L < 32) (hQ : Q.toNat.Prime)
    (hr : ∀ j, IsTransform c.ciphertext shape.size (fun k => r j k) (transformedR j))
    (circuit : Circuit) :
    HasPhase c key.secret shape.size (circuit.evaluate (fun j => (x j).ciphertext) transformedR
      (fun j => scalars j) (2 ^ L) shape) (circuit.phase x r scalars) := by
  have hvalue : HasPhase c key.secret shape.size _ (circuit.phase x r scalars) :=
    circuit.hasPhase (fun j => (x j).hasPhase htwo hL hQ) fun j => (hr j).slots_reduce htwo hL hQ
  refine Slots.congr hvalue (fun k hk => ?_) fun _ _ _ => rfl
  obtain ⟨hc0, hc1⟩ := Circuit.evaluate_eq (fun j => (x j).ciphertext) transformedR
    (fun j => scalars j) (Nat.two_pow_pos L).ne' circuit hk
  rw [hc0, hc1]

/-- Modulo `p` the phase of a circuit is the circuit on the plaintexts. -/
theorem Circuit.reduce_phase (circuit : Circuit) (i : ℕ) :
    reduce P (circuit.phase x r scalars i) =
      circuit.eval (fun j => polynomial L (x j).coefficients i)
        (fun j => reduce P (polynomial L (r j) i)) fun j => C (scalars j : Residue 32 P) := by
  rw [Circuit.phase, Circuit.map_eval]
  simp only [Encryption.reduce_phase]
  congr 1
  funext j
  rw [reduce, coe_mapRingHom, map_C]
  rfl

/-- Modulo `p` a ciphertext with the phase of a circuit decrypts to the circuit, unless the phase
wraps around. -/
theorem Circuit.decrypts_of_hasPhase (htwo : 2 ≤ L) (hL : L < 32) (hP : P.toNat.Prime)
    (hQ : Q.toNat.Prime) {launches : Launches P Q} (hruns : launches.Runs (2 ^ L) shape.size)
    {circuit : Circuit} {y : Ciphertext (Residue 32 Q)}
    (hphase : HasPhase c key.secret shape.size y (circuit.phase x r scalars))
    (hbounded : ∀ i < shape.size,
      Bounded Q (circuit.phase x r scalars i %ₘ (X ^ 2 ^ L + 1))) :
    circuit.Decrypts x r scalars launches (c.decrypt shape representation launches
      (operands key.secret y y fun _ => 0) (first (2 ^ L) shape)) := by
  obtain ⟨hciphertext, -, -⟩ := hasCiphertext_operands (c := c) htwo key.secret (fun _ => 0) y y
    shape
  have hplaintext : IsPlaintext c shape.size representation _ _ :=
    Lhe.isPlaintext_decrypt c htwo hL hP hruns (operands key.secret y y fun _ => 0)
      (first (2 ^ L) shape)
  have hpolynomial (i : ℕ) (hi : i < shape.size) :
      polynomial L (c.castBack shape launches (operands key.secret y y fun _ => 0)
        (first (2 ^ L) shape)) i =
        circuit.eval (fun j => polynomial L (x j).coefficients i)
          (fun j => reduce P (polynomial L (r j) i)) (fun j => C (scalars j : Residue 32 P)) %ₘ
            (X ^ 2 ^ L + 1) := by
    rw [polynomial_castBack c htwo hL hQ hruns hciphertext hphase hi (hbounded i hi),
      reduce_modByMonic, circuit.reduce_phase]
  constructor
  · intro i hi
    rw [hplaintext.polynomial_coefficients htwo hL hP hruns hi, hpolynomial i hi]
  · rintro rfl factors hfactors k hk
    -- a slot of a polynomial is its value at a root of unity, and the circuit commutes with it
    obtain ⟨hi, hp, hposition⟩ := position_lt hk
    have hroot := c.plaintext.root_pow hP
    have hslot : ∀ f : (Residue 32 P)[X], evalRingHom (c.plaintext.root ^
        (2 * reverseBits L (k % 2 ^ L) + 1)) f = f.eval _ := fun _ => rfl
    have hinput (j : ℕ) := (isPlaintext_coefficients c htwo hL hP (x j).runs (x j).plaintext :
      IsPlaintext c shape.size .numberTheoreticTransform _ _) _ hi _ hp
    have hfactor (j : ℕ) := (hfactors j).slots_reduce htwo hL hP _ hi _ hp
    rw [hposition] at hinput hfactor
    have hvalue := hplaintext _ hi _ hp
    rw [hposition, hpolynomial _ hi, eval_modByMonic hroot, ← hslot, Circuit.map_eval] at hvalue
    simp only [hinput, hfactor]
    refine hvalue.trans ?_
    simp only [hslot, eval_C]
    rfl

end

/-- **Homomorphic evaluation.** A circuit on ciphertexts decrypts to the same circuit on plaintexts,
as long as its phase does not wrap around. -/
theorem homomorphic_evaluation (htwo : 2 ≤ L) (hL : L < 32) (hP : P.toNat.Prime)
    (hQ : Q.toNat.Prime) {c : Compiled memory P Q L} {key : KeyPair c} {shape : Shape}
    {representation : Representation} (x : ℕ → Encryption key shape representation)
    (r : ℕ → ℕ → ℤ) (transformedR : ℕ → ℕ → Residue 32 Q) (scalars : ℕ → ℤ)
    (launches : Launches P Q)
    (hr : ∀ j, IsTransform c.ciphertext shape.size (fun k => r j k) (transformedR j))
    (hruns : launches.Runs (2 ^ L) shape.size) (circuit : Circuit)
    (hbounded : ∀ i < shape.size,
      Bounded Q (circuit.phase x r scalars i %ₘ (X ^ 2 ^ L + 1))) :
    circuit.Decrypts x r scalars launches (circuit.decrypt x transformedR scalars launches) :=
  Circuit.decrypts_of_hasPhase htwo hL hP hQ hruns (circuit.hasPhase_evaluate htwo hL hQ hr)
    hbounded

/-- Two plaintexts, the first of them times `X`. -/
def shifted : Circuit := .subtract (.multiplyLeft 0 (.input 0)) (.input 1)

theorem runs_seventeen : Launches.Runs ⟨items seventeen 4, items ninetySeven 4⟩ (2 ^ 2)
    (Shape.size [.dynamic 2]) :=
  ⟨fun _ => List.Perm.refl _, fun _ => List.Perm.refl _⟩

theorem abs_trivialKey_le {memory : ℕ → BitVec 32} {P Q : Modulus} {L : ℕ}
    (c : Compiled memory P Q L) (launch : Launch (Residue 32 Q)) (hruns : launch.Runs (2 ^ L) 1)
    (k : ℕ) : |(trivialKey c launch hruns).s k| ≤ 1 := by
  show |if k = 0 then (1 : ℤ) else 0| ≤ 1
  split <;> decide

/-- Encryptions with little randomness. -/
theorem exists_within_seventeen :
    ∃ (c : Compiled (fun _ => 0) seventeen ninetySeven 2) (key : KeyPair c)
      (x : ℕ → Encryption key [.dynamic 2] .numberTheoreticTransform),
      (∀ j k, (x j).plaintext k = (j + k : ℕ)) ∧ ∀ j, (x j).Within ⟨1, 0, 1, 0, 0⟩ := by
  obtain ⟨c⟩ : Nonempty (Compiled (fun _ => 0) seventeen ninetySeven 2) :=
    nonempty_compiled (by decide) (by decide) (by decide) (by decide) (by decide)
      compiles_seventeen
  have hlaunch : (items ninetySeven 2).Runs (2 ^ 2) 1 := fun _ => List.Perm.refl _
  refine ⟨c, trivialKey c _ hlaunch, fun j => maskedEncryption _ [.dynamic 2]
    .numberTheoreticTransform (fun k => ((j + k : ℕ) : Residue 32 seventeen)) _ runs_seventeen,
    fun _ _ => rfl, fun j => ⟨fun k _ => abs_trivialKey_le c _ hlaunch k, fun k _ => le_rfl,
      fun k _ => le_rfl, fun k _ => le_rfl, fun k _ => le_rfl⟩⟩

theorem abs_monomial_le (k : ℕ) : |if k % 4 = 1 then (1 : ℤ) else 0| ≤ 1 := by
  split <;> decide

theorem homomorphic_evaluation_seventeen :
    ∃ (c : Compiled (fun _ => 0) seventeen ninetySeven 2) (key : KeyPair c)
      (x : ℕ → Encryption key [.dynamic 2] .numberTheoreticTransform)
      (transformedR : ℕ → ℕ → Residue 32 ninetySeven),
      (∀ j k, (x j).plaintext k = (j + k : ℕ)) ∧
        shifted.Decrypts x (fun _ k => if k % 4 = 1 then 1 else 0) 0
          ⟨items _ 4, items _ 4⟩ (shifted.decrypt x transformedR 0 ⟨items _ 4, items _ 4⟩) := by
  obtain ⟨c, key, x, hplaintext, hx⟩ := exists_within_seventeen
  refine ⟨c, key, x, fun j => forward 2 (Shape.size [.dynamic 2]) c.ciphertext.root
    (items ninetySeven 4) fun k => ((if k % 4 = 1 then 1 else 0 : ℤ) : Residue 32 ninetySeven),
    hplaintext, ?_⟩
  exact homomorphic_evaluation le_rfl (by decide) (by decide) (by decide) x _ _ 0 _
    (fun j => ⟨items ninetySeven 4, runs_seventeen.2, fun _ _ => rfl⟩) runs_seventeen shifted
    fun i hi => shifted.bounded_phase hx (fun _ k _ => abs_monomial_le k) (by decide) hi

end

end Hmpc.Expr.Lhe
