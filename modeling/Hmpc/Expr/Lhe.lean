/-
# Hmpc.Expr.Lhe -- linearly homomorphic encryption

Keys and randomness are polynomials modulo `q` in transformed representation; a plaintext is a
polynomial modulo `p` in either representation. A ciphertext is a pair of expressions of the shape
of the plaintext, to which the keys are broadcast. All operands are tensors: the queue evaluates a
transform into a tensor of its own, which the expressions around it read.
-/
import Hmpc.Expr.Elements
import Hmpc.Expr.ResidueTransform
import Hmpc.Expr.Slots

namespace Hmpc.Expr.Lhe

open Hmpc.Core Hmpc.Ints Hmpc.Lib NumberTheoreticTransform ArrayExpression Polynomial

/-! ## The expressions -/

/-- `key_expression` and `randomness_expression` go in as their parts: `enc(key, plaintext,
randomness)`, with the transformed plaintext as `message`. -/
def enc (rank : ℕ) (a b message u v w p : ArrayExpression) : ArrayExpression × ArrayExpression :=
  (.binary .add (.binary .add (.binary .multiply (unsqueezed rank a) u) (.binary .multiply v p))
    message,
  .binary .add (.binary .multiply (unsqueezed rank b) u) (.binary .multiply w p))

/-- What `dec(key, ciphertext)` transforms back. -/
def dec (rank : ℕ) (key : ArrayExpression) (ciphertext : ArrayExpression × ArrayExpression) :
    ArrayExpression :=
  .binary .subtract ciphertext.1 (.binary .multiply (unsqueezed rank key) ciphertext.2)

/-- `left + right` for ciphertexts -/
def add (left right : ArrayExpression × ArrayExpression) : ArrayExpression × ArrayExpression :=
  (.binary .add left.1 right.1, .binary .add left.2 right.2)

/-- `left - right` for ciphertexts -/
def subtract (left right : ArrayExpression × ArrayExpression) :
    ArrayExpression × ArrayExpression :=
  (.binary .subtract left.1 right.1, .binary .subtract left.2 right.2)

/-- `left * right` for a ciphertext and an expression -/
def multiply (left : ArrayExpression × ArrayExpression) (right : ArrayExpression) :
    ArrayExpression × ArrayExpression :=
  (.binary .multiply left.1 right, .binary .multiply left.2 right)

/-- `left * right` for an expression and a ciphertext -/
def multiplyLeft (left : ArrayExpression) (right : ArrayExpression × ArrayExpression) :
    ArrayExpression × ArrayExpression :=
  (.binary .multiply left right.1, .binary .multiply left right.2)

/-! ## Their elements -/

section

variable {R : Type} [CommRing R]

/-- The operators between the elements of transformed polynomials; there are no others. -/
def apply : BinaryOperation → R → R → R
  | .add, left, right => left + right
  | .subtract, left, right => left - right
  | .multiply, left, right => left * right
  | _, left, _ => left

def interpretation (tensors : ℕ → ℕ → R) (p : R) : Interpretation R :=
  ⟨tensors, fun _ => p, fun _ value => value, apply⟩

/-- What the kernel of an expression gets at a linear index. -/
def elements (m : Interpretation R) (e : ArrayExpression) (k : ℕ) : R :=
  (e.evaluate m (fun _ _ => none) (.multidimensional (fromLinearIndex k e.elementShape))).getD 0

/-- A polynomial without dimensions, and polynomials of a shape. -/
def vector (n tag : ℕ) : ArrayExpression := .tensor ⟨0, n⟩ tag []

def operand (n : ℕ) (s : Shape) (tag : ℕ) : ArrayExpression := .tensor ⟨0, n⟩ tag s

variable {m : Interpretation R} {e : ArrayExpression} {s : Shape} {n : ℕ} {data : ℕ → R}

theorem elements_eq (h : HasElements m (fun _ _ => none) e s n data) {k : ℕ}
    (hk : k < s.size * n) : elements m e k = data k := by
  have hshape : e.elementShape = s.elementShape n := by
    rw [elementShape_of_shape h.shape, h.vectorSize]
  rw [elements, hshape, h.element k hk, Option.getD_some]

/-- `comp::crypto::lhe::ciphertext` -/
structure Ciphertext (R : Type) where
  c0 : ℕ → R
  c1 : ℕ → R

namespace Ciphertext

def add (x y : Ciphertext R) : Ciphertext R := ⟨fun k => x.c0 k + y.c0 k, fun k => x.c1 k + y.c1 k⟩

def sub (x y : Ciphertext R) : Ciphertext R := ⟨fun k => x.c0 k - y.c0 k, fun k => x.c1 k - y.c1 k⟩

def mul (x : Ciphertext R) (r : ℕ → R) : Ciphertext R :=
  ⟨fun k => x.c0 k * r k, fun k => x.c1 k * r k⟩

end Ciphertext

/-- A pair of expressions has the elements of a ciphertext. -/
structure HasCiphertext (tensors : ℕ → ℕ → R) (p : R) (e : ArrayExpression × ArrayExpression)
    (s : Shape) (n : ℕ) (x : Ciphertext R) : Prop where
  c0 : HasElements (interpretation tensors p) (fun _ _ => none) e.1 s n x.c0
  c1 : HasElements (interpretation tensors p) (fun _ _ => none) e.2 s n x.c1

section

variable {tensors : ℕ → ℕ → R} {p : R} {left right : ArrayExpression × ArrayExpression}
  {x y : Ciphertext R}

theorem HasCiphertext.add (hx : HasCiphertext tensors p left s n x)
    (hy : HasCiphertext tensors p right s n y) :
    HasCiphertext tensors p (add left right) s n (x.add y) :=
  ⟨hx.c0.binary hy.c0 .add, hx.c1.binary hy.c1 .add⟩

theorem HasCiphertext.subtract (hx : HasCiphertext tensors p left s n x)
    (hy : HasCiphertext tensors p right s n y) :
    HasCiphertext tensors p (subtract left right) s n (x.sub y) :=
  ⟨hx.c0.binary hy.c0 .subtract, hx.c1.binary hy.c1 .subtract⟩

theorem HasCiphertext.multiply (hx : HasCiphertext tensors p left s n x) {e : ArrayExpression}
    (he : HasElements (interpretation tensors p) (fun _ _ => none) e s n data) :
    HasCiphertext tensors p (multiply left e) s n (x.mul data) :=
  ⟨hx.c0.binary he .multiply, hx.c1.binary he .multiply⟩

theorem HasCiphertext.multiplyLeft (hx : HasCiphertext tensors p left s n x) {e : ArrayExpression}
    (he : HasElements (interpretation tensors p) (fun _ _ => none) e s n data) :
    HasCiphertext tensors p (multiplyLeft e left) s n (x.mul data) := by
  have h0 := he.binary hx.c0 .multiply
  have h1 := he.binary hx.c1 .multiply
  have hcomm (z : ℕ → R) : (fun k => z k * data k) = fun k => data k * z k :=
    funext fun k => mul_comm _ _
  constructor
  · show HasElements _ _ _ s n fun k => x.c0 k * data k
    rw [hcomm]
    exact h0
  · show HasElements _ _ _ s n fun k => x.c1 k * data k
    rw [hcomm]
    exact h1

end

variable (hn : 1 < n) (tensors : ℕ → ℕ → R) (p : R)
include hn

theorem hasElements_operand (tag : ℕ) :
    HasElements (interpretation tensors p) (fun _ _ => none) (operand n s tag) s n
      (tensors tag) :=
  HasElements.tensor (by omega) 0 tag

/-- The two parts of a ciphertext. -/
theorem hasElements_enc (s : Shape) :
    HasElements (interpretation tensors p) (fun _ _ => none)
      (enc s.length (vector n 0) (vector n 1) (operand n s 5) (operand n s 2) (operand n s 3)
        (operand n s 4) (.value ⟨0, 0⟩ 0)).1 s n
      (fun k => tensors 0 (k % n) * tensors 2 k + tensors 3 k * p + tensors 5 k) ∧
    HasElements (interpretation tensors p) (fun _ _ => none)
      (enc s.length (vector n 0) (vector n 1) (operand n s 5) (operand n s 2) (operand n s 3)
        (operand n s 4) (.value ⟨0, 0⟩ 0)).2 s n
      (fun k => tensors 1 (k % n) * tensors 2 k + tensors 4 k * p) := by
  have hoperand := hasElements_operand (s := s) hn tensors p
  constructor
  · exact (((hoperand 2).broadcast hn .multiply 0 0).binary
      ((hoperand 3).binary_value .multiply 0 0) .add).binary (hoperand 5) .add
  · exact ((hoperand 2).broadcast hn .multiply 0 1).binary
      ((hoperand 4).binary_value .multiply 0 0) .add

/-- What is transformed back. -/
theorem hasElements_dec {ciphertext : ArrayExpression × ArrayExpression} {x : Ciphertext R}
    (h : HasCiphertext tensors p ciphertext s n x) :
    HasElements (interpretation tensors p) (fun _ _ => none)
      (dec s.length (vector n 0) ciphertext) s n
      (fun k => x.c0 k - tensors 0 (k % n) * x.c1 k) :=
  h.c0.binary (h.c1.broadcast hn .multiply 0 0) .subtract

end

/-! ## The constants -/

/-- `modulus_constant` -/
def modulusInteger (P : Modulus) : BitArray 32 :=
  (⟨P.bits, .unsigned, P.normalType⟩ : SpanType).array 32 P.toNat

/-- What encryption and decryption are compiled with, for the moduli `p` and `q`. -/
structure Compiled (memory : ℕ → BitVec 32) (P Q : Modulus) (L : ℕ) where
  plaintext : Constants memory P L
  ciphertext : Constants memory Q L
  /-- `cast<coeff_type>` in `enc` -/
  toCiphertext : Residue 32 P → Residue 32 Q
  toCiphertext_eq : ∀ a, Mod.ofMod memory Q a.val = some (toCiphertext a).val
  /-- `cast` in `dec` -/
  toPlaintext : Residue 32 Q → Residue 32 P
  toPlaintext_eq : ∀ a, Mod.ofMod memory P a.val = some (toPlaintext a).val
  p : Residue 32 Q
  p_eq : Mod.ofUnsigned memory Q (modulusInteger P) = some p.val

section

variable {memory : ℕ → BitVec 32} {P Q : Modulus} {L : ℕ}

theorem toZMod_intCast {w : ℕ} [NeZero w] {N : Modulus} (z : ℤ) :
    (z : Residue w N).toZMod = (z : ZMod N.toNat) :=
  map_intCast (Residue.ringEquiv w N) z

/-- A value whose unsigned conversion is that of an integer. -/
theorem eq_intCast_of_holds {w : ℕ} [NeZero w] {N : Modulus} {memory : ℕ → BitVec w}
    {a : Residue w N} {z : ℤ} (h : Mod.Holds memory a.val z) : a = z := by
  apply Residue.toZMod_injective
  rw [toZMod_intCast]
  show a.val.toZMod = _
  rw [← Mod.cast_toUnsigned memory h.1, h.2]
  exact ZMod.intCast_mod _ _

/-- Another modulus means the same small integer. -/
theorem ofMod_eq {N M : Modulus} {a : Residue 32 M} {b : Residue 32 N}
    (h : Mod.ofMod memory N a.val = some b.val) : b = (a.toZMod.valMinAbs : ℤ) := by
  exact eq_intCast_of_holds ((Mod.returns_ofMod (N := N) memory a.reduced).post h)

variable (memory) in
theorem exists_ofMod {N M : Modulus} (hcompiles : N.ModCompiles 32 M) (a : Residue 32 M) :
    ∃ b : Residue 32 N, Mod.ofMod memory N a.val = some b.val := by
  obtain ⟨c, hc, hholds⟩ := (Mod.returns_ofMod (N := N) memory a.reduced).result hcompiles
  exact ⟨⟨c, hholds.1⟩, hc⟩

theorem normalized_modulusInteger : Bigint.Normalized (modulusInteger P) :=
  ⟨nofun, SpanType.isNormal_array _ ((SpanType.inRange_unsigned _ rfl).mpr
    ⟨Int.natCast_nonneg _, by exact_mod_cast P.lt⟩)⟩

theorem toInt_modulusInteger : (modulusInteger P).toInt = P.toNat := by
  rw [modulusInteger, SpanType.toInt_array]
  exact (SpanType.inRange_unsigned ⟨P.bits, .unsigned, P.normalType⟩ rfl).mpr
    ⟨Int.natCast_nonneg _, by exact_mod_cast P.lt⟩

variable (memory) in
theorem returns_modulusInteger : Mod.Returns memory (Q.UnsignedCompiles 32 P.bits)
    (Mod.ofUnsigned memory Q (modulusInteger P)) P.toNat := by
  have hreturns := Mod.returns_ofUnsigned (N := Q) memory (normalized_modulusInteger (P := P)) rfl
  rwa [toInt_modulusInteger] at hreturns

namespace Compiled

variable (c : Compiled memory P Q L)

theorem p_val : c.p = (P.toNat : ℤ) := by
  exact eq_intCast_of_holds ((returns_modulusInteger memory).post c.p_eq)

theorem toCiphertext_val (a : Residue 32 P) : c.toCiphertext a = (a.toZMod.valMinAbs : ℤ) :=
  ofMod_eq (c.toCiphertext_eq a)

/-- The lift of a small integer is that integer. -/
theorem toPlaintext_intCast {z : ℤ} (hz : |z| ≤ ((Q.toNat : ℤ) - 1) / 2) :
    c.toPlaintext z = z := by
  have hsmall : (z : ZMod Q.toNat).valMinAbs = z := by
    have habs := abs_le.mp hz
    rw [ZMod.valMinAbs_spec]
    exact ⟨rfl, by rw [Set.mem_Ioc]; omega⟩
  rw [ofMod_eq (c.toPlaintext_eq z), toZMod_intCast, hsmall]

end Compiled

/-- The constants of both moduli and those of the conversions between them compile. -/
structure Compiles (P Q : Modulus) : Prop where
  plaintext : P.UnsignedCompiles 32 32 ∧ P.CubedCompiles 32
  ciphertext : Q.UnsignedCompiles 32 32 ∧ Q.CubedCompiles 32
  toCiphertext : Q.ModCompiles 32 P
  toPlaintext : P.ModCompiles 32 Q
  p : Q.UnsignedCompiles 32 P.bits

/-- Encryption and decryption compile when their constants do. -/
theorem nonempty_compiled (hL : L < 32) (hP : P.toNat.Prime) (hQ : Q.toNat.Prime)
    (hPL : P.toNat ≡ 1 [MOD 2 * 2 ^ L]) (hQL : Q.toNat ≡ 1 [MOD 2 * 2 ^ L])
    (hcompiles : Compiles P Q) : Nonempty (Compiled memory P Q L) := by
  obtain ⟨plaintext⟩ : Nonempty (Constants memory P L) :=
    nonempty_constants hL hP hPL hcompiles.plaintext.1 hcompiles.plaintext.2
  obtain ⟨ciphertext⟩ : Nonempty (Constants memory Q L) :=
    nonempty_constants hL hQ hQL hcompiles.ciphertext.1 hcompiles.ciphertext.2
  choose toCiphertext htoCiphertext using exists_ofMod memory hcompiles.toCiphertext
  choose toPlaintext htoPlaintext using exists_ofMod memory hcompiles.toPlaintext
  obtain ⟨p, hp, hholds⟩ := (returns_modulusInteger memory).result hcompiles.p
  exact ⟨⟨plaintext, ciphertext, toCiphertext, htoCiphertext, toPlaintext, htoPlaintext,
    ⟨p, hholds.1⟩, hp⟩⟩

/-! ## Encryption and decryption -/

/-- `polynomial_representation` -/
inductive Representation
  | coefficient
  | numberTheoreticTransform

/-- The orders in which the kernels of the transforms run. -/
structure Launches (P Q : Modulus) where
  plaintext : Launch (Residue 32 P)
  ciphertext : Launch (Residue 32 Q)

def Launches.Runs (launches : Launches P Q) (vectorSize elementSize : ℕ) : Prop :=
  launches.plaintext.Runs vectorSize elementSize ∧ launches.ciphertext.Runs vectorSize elementSize

namespace Compiled

variable (c : Compiled memory P Q L) (s : Shape) (representation : Representation)
  (launches : Launches P Q)

/-- The plaintext in coefficient representation. -/
def coefficients (plaintext : ℕ → Residue 32 P) : ℕ → Residue 32 P :=
  match representation with
  | .coefficient => plaintext
  | .numberTheoreticTransform =>
      inverse L s.size c.plaintext.inverseRoot c.plaintext.factor launches.plaintext plaintext

/-- The elements of `message` -/
def message (plaintext : ℕ → Residue 32 P) : ℕ → Residue 32 Q :=
  let coefficients := c.coefficients s representation launches plaintext
  forward L s.size c.ciphertext.root launches.ciphertext fun k => c.toCiphertext (coefficients k)

/-- `enc(key, plaintext, randomness)`, evaluated to tensors -/
def encrypt (a b u v w : ℕ → Residue 32 Q) (plaintext : ℕ → Residue 32 P) :
    Ciphertext (Residue 32 Q) :=
  let tensors : ℕ → ℕ → Residue 32 Q
    | 0 => a
    | 1 => b
    | 2 => u
    | 3 => v
    | 4 => w
    | _ => c.message s representation launches plaintext
  let n := 2 ^ L
  let ciphertext := enc s.length (vector n 0) (vector n 1) (operand n s 5) (operand n s 2)
    (operand n s 3) (operand n s 4) (.value ⟨0, 0⟩ 0)
  ⟨elements (interpretation tensors c.p) ciphertext.1,
    elements (interpretation tensors c.p) ciphertext.2⟩

/-- The elements of `cast<coeff_type>(coeff_x)` -/
def castBack (tensors : ℕ → ℕ → Residue 32 Q) (ciphertext : ArrayExpression × ArrayExpression)
    (k : ℕ) : Residue 32 P :=
  let x := dec s.length (vector (2 ^ L) 0) ciphertext
  c.toPlaintext (inverse L s.size c.ciphertext.inverseRoot c.ciphertext.factor
    launches.ciphertext (elements (interpretation tensors c.p) x) k)

/-- `dec<Plaintext>(key, ciphertext)`, evaluated to a tensor -/
def decrypt (tensors : ℕ → ℕ → Residue 32 Q) (ciphertext : ArrayExpression × ArrayExpression) :
    ℕ → Residue 32 P :=
  match representation with
  | .coefficient => c.castBack s launches tensors ciphertext
  | .numberTheoreticTransform => forward L s.size c.plaintext.root launches.plaintext
      (c.castBack s launches tensors ciphertext)

end Compiled

/-- The tensors of a decryption: the key, two ciphertexts and a factor. -/
def operands {R : Type} (key : ℕ → R) (x y : Ciphertext R) (factor : ℕ → R) : ℕ → ℕ → R
  | 0 => key
  | 1 => x.c0
  | 2 => x.c1
  | 3 => y.c0
  | 4 => y.c1
  | _ => factor

/-- `ciphertext(x)` -/
def first (n : ℕ) (s : Shape) : ArrayExpression × ArrayExpression :=
  (operand n s 1, operand n s 2)

/-- `ciphertext(y)` -/
def second (n : ℕ) (s : Shape) : ArrayExpression × ArrayExpression :=
  (operand n s 3, operand n s 4)

/-- The factor. -/
def factor (n : ℕ) (s : Shape) : ArrayExpression := operand n s 5

/-! ## Plaintexts in both representations -/

instance {w : ℕ} [NeZero w] {N : Modulus} : Nontrivial (Residue w N) :=
  (Residue.ringEquiv w N).symm.injective.nontrivial

/-- An array is a plaintext with these coefficients. -/
def IsPlaintext (c : Compiled memory P Q L) (m : ℕ) (representation : Representation)
    (x z : ℕ → Residue 32 P) : Prop :=
  match representation with
  | .coefficient => ∀ k < m * 2 ^ L, x k = z k
  | .numberTheoreticTransform => Slots L m c.plaintext.root x (polynomial L z)

section

variable (c : Compiled memory P Q L) {s : Shape} {m : ℕ} {representation : Representation}
  {launches : Launches P Q} {x y z z' : ℕ → Residue 32 P}

variable {c} in
theorem IsPlaintext.add (hx : IsPlaintext c m representation x z)
    (hy : IsPlaintext c m representation y z') :
    IsPlaintext c m representation (fun k => x k + y k) (fun k => z k + z' k) := by
  cases representation with
  | coefficient => exact fun k hk => congrArg₂ (· + ·) (hx k hk) (hy k hk)
  | numberTheoreticTransform =>
      refine (Slots.add hx hy).congr (fun _ _ => rfl) fun i _ _ => ?_
      rw [polynomial_add]

variable {c} in
theorem IsPlaintext.sub (hx : IsPlaintext c m representation x z)
    (hy : IsPlaintext c m representation y z') :
    IsPlaintext c m representation (fun k => x k - y k) (fun k => z k - z' k) := by
  cases representation with
  | coefficient => exact fun k hk => congrArg₂ (· - ·) (hx k hk) (hy k hk)
  | numberTheoreticTransform =>
      refine (Slots.sub hx hy).congr (fun _ _ => rfl) fun i _ _ => ?_
      rw [polynomial_sub]

theorem eq_of_polynomial_eq {R : Type} [CommRing R] {x y : ℕ → R}
    (h : ∀ i < m, polynomial L x i = polynomial L y i) {k : ℕ} (hk : k < m * 2 ^ L) :
    x k = y k := by
  obtain ⟨hi, hj, hposition⟩ := position_lt hk
  have hcoeff := congrArg (fun f : R[X] => f.coeff (k % 2 ^ L)) (h _ hi)
  rwa [coeff_polynomial hj, coeff_polynomial hj, hposition] at hcoeff

variable {c} in
/-- The coefficients determine a plaintext. -/
theorem IsPlaintext.unique (hx : IsPlaintext c m representation x z)
    (hy : IsPlaintext c m representation y z')
    (h : ∀ i < m, polynomial L z i = polynomial L z' i) {k : ℕ} (hk : k < m * 2 ^ L) :
    x k = y k := by
  cases representation with
  | coefficient => rw [hx k hk, hy k hk, eq_of_polynomial_eq h hk]
  | numberTheoreticTransform =>
      obtain ⟨hi, hp, hposition⟩ := position_lt hk
      rw [← hposition, hx _ hi _ hp, hy _ hi _ hp, h _ hi]

variable (htwo : 2 ≤ L) (hL : L < 32) (hP : P.toNat.Prime)
  (hruns : launches.Runs (2 ^ L) s.size)
include htwo hL hP hruns

theorem isPlaintext_coefficients (x : ℕ → Residue 32 P) :
    IsPlaintext c s.size representation x (c.coefficients s representation launches x) := by
  cases representation with
  | coefficient => exact fun _ _ => rfl
  | numberTheoreticTransform =>
      refine (slots_forward htwo hL (c.plaintext.root_pow hP) hruns.1 _).congr
        (fun k hk => ?_) fun _ _ _ => rfl
      exact (c.plaintext.forward_inverse htwo hL hruns.1 hruns.1 x hk).symm

theorem isPlaintext_decrypt (tensors : ℕ → ℕ → Residue 32 Q)
    (ciphertext : ArrayExpression × ArrayExpression) :
    IsPlaintext c s.size representation
      (c.decrypt s representation launches tensors ciphertext)
      (c.castBack s launches tensors ciphertext) := by
  cases representation with
  | coefficient => exact fun _ _ => rfl
  | numberTheoreticTransform =>
      exact slots_forward htwo hL (c.plaintext.root_pow hP) hruns.1 _

variable {c} in
/-- The coefficients that are transformed back. -/
theorem IsPlaintext.polynomial_coefficients (hx : IsPlaintext c s.size representation x z) {i : ℕ}
    (hi : i < s.size) :
    polynomial L (c.coefficients s representation launches x) i = polynomial L z i := by
  cases representation with
  | coefficient =>
      exact polynomial_congr fun j hj => hx _ (position_of_lt hi hj)
  | numberTheoreticTransform =>
      refine polynomial_coeff (degree_polynomial_lt z i) fun j hj => ?_
      have hinverse := Slots.inverse_eq htwo hL (c.plaintext.root_pow hP)
        c.plaintext.root_mul_inverseRoot (c.plaintext.factor_mul_two_pow hL) hruns.1 hx hi hj
      rw [modByMonic_of_degree_lt (degree_polynomial_lt z i)] at hinverse
      exact hinverse

end

/-! ## Decryption -/

section

variable (c : Compiled memory P Q L) {s : Shape} {launches : Launches P Q}
  {tensors : ℕ → ℕ → Residue 32 Q} {ciphertext : ArrayExpression × ArrayExpression}
  {x y : Ciphertext (Residue 32 Q)} {secret : ℕ → Residue 32 Q} {phase phase' : ℕ → ℤ[X]}

/-- All coefficients can be lifted. -/
def Bounded (Q : Modulus) (f : ℤ[X]) : Prop := ∀ j, |f.coeff j| ≤ ((Q.toNat : ℤ) - 1) / 2

/-- The image of an integer polynomial. -/
noncomputable def reduce (N : Modulus) : ℤ[X] →+* (Residue 32 N)[X] :=
  mapRingHom (Int.castRingHom (Residue 32 N))

theorem coeff_reduce (N : Modulus) (f : ℤ[X]) (j : ℕ) :
    (reduce N f).coeff j = (f.coeff j : Residue 32 N) :=
  coeff_map _ _

theorem reduce_modByMonic (N : Modulus) (f : ℤ[X]) :
    reduce N (f %ₘ (X ^ 2 ^ L + 1)) = reduce N f %ₘ (X ^ 2 ^ L + 1) :=
  map_modByMonic_negacyclic _ f

theorem reduce_polynomial (N : Modulus) (z : ℕ → ℤ) (i : ℕ) :
    reduce N (polynomial L z i) = polynomial L (fun k => (z k : Residue 32 N)) i :=
  map_polynomial _ z i

/-- The integer polynomials that a ciphertext is, with the secret key, transforms of. -/
def HasPhase (secret : ℕ → Residue 32 Q) (m : ℕ) (x : Ciphertext (Residue 32 Q))
    (phase : ℕ → ℤ[X]) : Prop :=
  Slots L m c.ciphertext.root (fun k => x.c0 k - secret (k % 2 ^ L) * x.c1 k)
    fun i => reduce Q (phase i)

variable {c} in
theorem HasPhase.add {m : ℕ} (hx : HasPhase c secret m x phase)
    (hy : HasPhase c secret m y phase') :
    HasPhase c secret m (x.add y) fun i => phase i + phase' i := by
  refine (Slots.add hx hy).congr (fun k _ => ?_) fun i _ _ => ?_
  · show x.c0 k + y.c0 k - secret (k % 2 ^ L) * (x.c1 k + y.c1 k) = _
    ring
  · rw [map_add]

variable {c} in
theorem HasPhase.sub {m : ℕ} (hx : HasPhase c secret m x phase)
    (hy : HasPhase c secret m y phase') :
    HasPhase c secret m (x.sub y) fun i => phase i - phase' i := by
  refine (Slots.sub hx hy).congr (fun k _ => ?_) fun i _ _ => ?_
  · show x.c0 k - y.c0 k - secret (k % 2 ^ L) * (x.c1 k - y.c1 k) = _
    ring
  · rw [map_sub]

variable {c} in
theorem HasPhase.mul {m : ℕ} (hx : HasPhase c secret m x phase) {r : ℕ → Residue 32 Q}
    {f : ℕ → ℤ[X]} (hr : Slots L m c.ciphertext.root r fun i => reduce Q (f i)) :
    HasPhase c secret m (x.mul r) fun i => f i * phase i := by
  refine (Slots.mul hr hx).congr (fun k _ => ?_) fun i _ _ => ?_
  · show x.c0 k * r k - secret (k % 2 ^ L) * (x.c1 k * r k) = _
    ring
  · rw [map_mul]

/-- Decryption takes a small phase to its image modulo `p`. -/
theorem polynomial_castBack (htwo : 2 ≤ L) (hL : L < 32) (hQ : Q.toNat.Prime)
    (hruns : launches.Runs (2 ^ L) s.size)
    (hciphertext : HasCiphertext tensors c.p ciphertext s (2 ^ L) x)
    (hphase : HasPhase c (tensors 0) s.size x phase) {i : ℕ} (hi : i < s.size)
    (hbounded : Bounded Q (phase i %ₘ (X ^ 2 ^ L + 1))) :
    polynomial L (c.castBack s launches tensors ciphertext) i =
      reduce P (phase i %ₘ (X ^ 2 ^ L + 1)) := by
  have hone : 1 < 2 ^ L := Nat.one_lt_two_pow (by omega)
  have hdec := hasElements_dec hone tensors c.p hciphertext
  have hslots := Slots.congr hphase (fun k hk => elements_eq hdec hk) fun _ _ _ => rfl
  refine polynomial_coeff ?_ fun j hj => ?_
  · rw [reduce_modByMonic]
    exact degree_modByMonic_negacyclic_lt _
  · have hinverse := hslots.inverse_eq htwo hL (c.ciphertext.root_pow hQ)
      c.ciphertext.root_mul_inverseRoot (c.ciphertext.factor_mul_two_pow hL) hruns.2 hi hj
    rw [← reduce_modByMonic, coeff_reduce] at hinverse
    rw [Compiled.castBack, hinverse, c.toPlaintext_intCast (hbounded j), coeff_reduce]

end

/-! ## Keys and ciphertexts -/

/-- A tensor has the transforms of the polynomials in another one. -/
def IsTransform {N : Modulus} (constants : Constants memory N L) (m : ℕ)
    (x transformed : ℕ → Residue 32 N) : Prop :=
  ∃ launch : Launch (Residue 32 N), launch.Runs (2 ^ L) m ∧
    ∀ k < m * 2 ^ L, transformed k = forward L m constants.root launch x k

theorem IsTransform.slots {N : Modulus} {constants : Constants memory N L} {m : ℕ}
    {x transformed : ℕ → Residue 32 N} (htwo : 2 ≤ L) (hL : L < 32) (hN : N.toNat.Prime)
    (h : IsTransform constants m x transformed) :
    Slots L m constants.root transformed (polynomial L x) := by
  obtain ⟨launch, hruns, heq⟩ := h
  exact (slots_forward htwo hL (constants.root_pow hN) hruns x).congr heq fun _ _ _ => rfl

/-- The transforms of integer polynomials. -/
theorem IsTransform.slots_reduce {N : Modulus} {constants : Constants memory N L} {m : ℕ}
    {z : ℕ → ℤ} {transformed : ℕ → Residue 32 N} (htwo : 2 ≤ L) (hL : L < 32)
    (hN : N.toNat.Prime) (h : IsTransform constants m (fun k => z k) transformed) :
    Slots L m constants.root transformed fun i => reduce N (polynomial L z i) := by
  refine (h.slots htwo hL hN).congr (fun _ _ => rfl) fun i _ _ => ?_
  rw [reduce_polynomial]

/-- A secret key and a public key for it, as polynomials and as tensors of their transforms:
`a = s * b + p * e`. -/
structure KeyPair (c : Compiled memory P Q L) where
  s : ℕ → ℤ
  e : ℕ → ℤ
  a : ℕ → Residue 32 Q
  b : ℕ → Residue 32 Q
  key_eq : polynomial L a 0 =
    (reduce Q (polynomial L s 0) * polynomial L b 0 +
      reduce Q (P.toNat * polynomial L e 0)) %ₘ (X ^ 2 ^ L + 1)
  secret : ℕ → Residue 32 Q
  secret_eq : IsTransform c.ciphertext 1 (fun k => s k) secret
  publicA : ℕ → Residue 32 Q
  publicA_eq : IsTransform c.ciphertext 1 a publicA
  publicB : ℕ → Residue 32 Q
  publicB_eq : IsTransform c.ciphertext 1 b publicB

/-- A plaintext, and the randomness that it is encrypted with. -/
structure Encryption {c : Compiled memory P Q L} (key : KeyPair c) (shape : Shape)
    (representation : Representation) where
  plaintext : ℕ → Residue 32 P
  u : ℕ → ℤ
  v : ℕ → ℤ
  w : ℕ → ℤ
  transformedU : ℕ → Residue 32 Q
  transformedU_eq : IsTransform c.ciphertext shape.size (fun k => u k) transformedU
  transformedV : ℕ → Residue 32 Q
  transformedV_eq : IsTransform c.ciphertext shape.size (fun k => v k) transformedV
  transformedW : ℕ → Residue 32 Q
  transformedW_eq : IsTransform c.ciphertext shape.size (fun k => w k) transformedW
  launches : Launches P Q
  runs : launches.Runs (2 ^ L) shape.size

namespace Encryption

variable {c : Compiled memory P Q L} {key : KeyPair c} {shape : Shape}
  {representation : Representation} (x : Encryption key shape representation)

def ciphertext : Ciphertext (Residue 32 Q) :=
  c.encrypt shape representation x.launches key.publicA key.publicB x.transformedU
    x.transformedV x.transformedW x.plaintext

/-- The plaintext as an array of coefficients, -/
def coefficients : ℕ → Residue 32 P :=
  c.coefficients shape representation x.launches x.plaintext

/-- and as small integers. -/
def centered (k : ℕ) : ℤ := (x.coefficients k).toZMod.valMinAbs

/-- `p * (e * u + v - s * w) + centered(m)` in the integer polynomials modulo `X ^ n + 1`. -/
noncomputable def phase (i : ℕ) : ℤ[X] :=
  (P.toNat * (polynomial L key.e 0 * polynomial L x.u i + polynomial L x.v i -
      polynomial L key.s 0 * polynomial L x.w i) + polynomial L x.centered i) %ₘ
    (X ^ 2 ^ L + 1)

/-- Modulo `p` only the plaintext is left of the phase. -/
theorem reduce_phase (i : ℕ) : reduce P (x.phase i) = polynomial L x.coefficients i := by
  have hp : (P.toNat : Residue 32 P) = 0 := by
    apply Residue.toZMod_injective
    rw [← Int.cast_natCast, toZMod_intCast, Int.cast_natCast, ZMod.natCast_self]
    exact (map_zero (Residue.ringEquiv 32 P)).symm
  have hcentered : reduce P (polynomial L x.centered i) = polynomial L x.coefficients i := by
    rw [reduce_polynomial]
    refine polynomial_congr fun j _ => Residue.toZMod_injective ?_
    rw [toZMod_intCast]
    exact ZMod.coe_valMinAbs _
  rw [phase, reduce_modByMonic, map_add, map_mul, map_natCast, ← C_eq_natCast, hp, C_0, zero_mul,
    zero_add, hcentered, modByMonic_of_degree_lt (degree_polynomial_lt _ i)]

/-- What the kernels write. -/
theorem ciphertext_eq (htwo : 2 ≤ L) {k : ℕ} (hk : k < shape.size * 2 ^ L) :
    x.ciphertext.c0 k = key.publicA (k % 2 ^ L) * x.transformedU k + x.transformedV k * c.p +
        c.message shape representation x.launches x.plaintext k ∧
      x.ciphertext.c1 k =
        key.publicB (k % 2 ^ L) * x.transformedU k + x.transformedW k * c.p := by
  have hone : 1 < 2 ^ L := Nat.one_lt_two_pow (by omega)
  have henc := fun tensors => hasElements_enc hone tensors c.p shape
  exact ⟨elements_eq (henc _).1 hk, elements_eq (henc _).2 hk⟩

/-- The transform of the lifted plaintext. -/
theorem slots_message (htwo : 2 ≤ L) (hL : L < 32) (hQ : Q.toNat.Prime) :
    Slots L shape.size c.ciphertext.root
      (c.message shape representation x.launches x.plaintext)
      fun i => reduce Q (polynomial L x.centered i) := by
  refine (slots_forward htwo hL (c.ciphertext.root_pow hQ) x.runs.2 _).congr (fun _ _ => rfl)
    fun i _ _ => ?_
  have hlift : polynomial L (fun k => c.toCiphertext (x.coefficients k)) i =
      polynomial L (fun k => (x.centered k : Residue 32 Q)) i :=
    polynomial_congr fun j _ => c.toCiphertext_val _
  rw [reduce_polynomial, ← hlift]
  rfl

/-- **The noise of a ciphertext.** With the secret key the public key cancels. -/
theorem hasPhase (htwo : 2 ≤ L) (hL : L < 32) (hQ : Q.toNat.Prime) :
    HasPhase c key.secret shape.size x.ciphertext x.phase := by
  have hroot := c.ciphertext.root_pow hQ
  have hS := (key.secret_eq.slots_reduce htwo hL hQ).broadcast (m := shape.size)
  have hA := (key.publicA_eq.slots htwo hL hQ).broadcast (m := shape.size)
  have hB := (key.publicB_eq.slots htwo hL hQ).broadcast (m := shape.size)
  have hU := x.transformedU_eq.slots_reduce htwo hL hQ
  have hV := x.transformedV_eq.slots_reduce htwo hL hQ
  have hW := x.transformedW_eq.slots_reduce htwo hL hQ
  have hparts := (((hA.mul hU).add (hV.mul_const c.p)).add (x.slots_message htwo hL hQ)).sub
    (hS.mul ((hB.mul hU).add (hW.mul_const c.p)))
  refine hparts.congr (fun k hk => ?_) fun i _ r => ?_
  · rw [(x.ciphertext_eq htwo hk).1, (x.ciphertext_eq htwo hk).2]
  · have hkey := congrArg (eval (c.ciphertext.root ^ (2 * r + 1))) key.key_eq
    have hp : c.p = (P.toNat : Residue 32 Q) := by
      rw [c.p_val]
      exact Int.cast_natCast _
    rw [eval_modByMonic hroot] at hkey
    rw [phase, reduce_modByMonic, eval_modByMonic hroot]
    simp only [map_add, map_sub, map_mul, map_natCast, eval_add, eval_sub, eval_mul,
      eval_natCast, hp] at hkey ⊢
    rw [hkey]
    ring

end Encryption

/-! ## What decryption returns -/

section

variable {c : Compiled memory P Q L} {key : KeyPair c} {shape : Shape}
  {representation : Representation} {launches : Launches P Q}

theorem phase_modByMonic (x : Encryption key shape representation) (i : ℕ) :
    x.phase i %ₘ (X ^ 2 ^ L + 1) = x.phase i :=
  modByMonic_of_degree_lt (degree_modByMonic_negacyclic_lt _)

variable {x y z : Ciphertext (Residue 32 Q)} {right secret : ℕ → Residue 32 Q}

/-- The tensors of a decryption are those of the key, of the ciphertexts and of the factor. -/
theorem hasCiphertext_operands (htwo : 2 ≤ L) (secret right : ℕ → Residue 32 Q)
    (x y : Ciphertext (Residue 32 Q)) (s : Shape) :
    HasCiphertext (operands secret x y right) c.p (first (2 ^ L) s) s (2 ^ L) x ∧
      HasCiphertext (operands secret x y right) c.p (second (2 ^ L) s) s (2 ^ L) y ∧
      HasElements (interpretation (operands secret x y right) c.p) (fun _ _ => none)
        (factor (2 ^ L) s) s (2 ^ L) right := by
  have hone : 1 < 2 ^ L := Nat.one_lt_two_pow (by omega)
  have hoperand := fun tag =>
    hasElements_operand (s := s) hone (operands secret x y right) c.p tag
  exact ⟨⟨hoperand 1, hoperand 2⟩, ⟨hoperand 3, hoperand 4⟩, hoperand 5⟩

/-- A ciphertext with a small phase decrypts to the plaintext with the coefficients of the phase. -/
theorem decrypt_eq (htwo : 2 ≤ L) (hL : L < 32) (hP : P.toNat.Prime) (hQ : Q.toNat.Prime)
    (hruns : launches.Runs (2 ^ L) shape.size)
    {ciphertext : ArrayExpression × ArrayExpression}
    (hciphertext : HasCiphertext (operands secret x y right) c.p ciphertext shape (2 ^ L) z)
    {phase : ℕ → ℤ[X]} (hphase : HasPhase c secret shape.size z phase)
    (hbounded : ∀ i < shape.size, Bounded Q (phase i %ₘ (X ^ 2 ^ L + 1)))
    {plaintext coefficients : ℕ → Residue 32 P}
    (hplaintext : IsPlaintext c shape.size representation plaintext coefficients)
    (hcoefficients : ∀ i < shape.size,
      reduce P (phase i %ₘ (X ^ 2 ^ L + 1)) = polynomial L coefficients i) {k : ℕ}
    (hk : k < shape.size * 2 ^ L) :
    c.decrypt shape representation launches (operands secret x y right) ciphertext k =
      plaintext k :=
  (isPlaintext_decrypt c htwo hL hP hruns _ ciphertext).unique hplaintext
    (fun i hi => (polynomial_castBack c htwo hL hQ hruns hciphertext hphase hi
      (hbounded i hi)).trans (hcoefficients i hi)) hk

end

/-- What decryption promises for two ciphertexts of one key, and a polynomial as the factor. -/
structure Decrypts {c : Compiled memory P Q L} {key : KeyPair c} {shape : Shape}
    {representation : Representation} (x y : Encryption key shape representation) (r : ℕ → ℤ)
    (decrypted : ArrayExpression × ArrayExpression → ℕ → Residue 32 P) : Prop where
  fresh : (∀ i < shape.size, Bounded Q (x.phase i)) →
    ∀ k < shape.size * 2 ^ L, decrypted (first (2 ^ L) shape) k = x.plaintext k
  sum : (∀ i < shape.size, Bounded Q (x.phase i + y.phase i)) →
    ∀ k < shape.size * 2 ^ L,
      decrypted (add (first (2 ^ L) shape) (second (2 ^ L) shape)) k =
        x.plaintext k + y.plaintext k
  difference : (∀ i < shape.size, Bounded Q (x.phase i - y.phase i)) →
    ∀ k < shape.size * 2 ^ L,
      decrypted (subtract (first (2 ^ L) shape) (second (2 ^ L) shape)) k =
        x.plaintext k - y.plaintext k
  product : (∀ i < shape.size,
      Bounded Q ((polynomial L r i * x.phase i) %ₘ (X ^ 2 ^ L + 1))) →
    ∀ e ∈ [multiply (first (2 ^ L) shape) (factor (2 ^ L) shape),
        multiplyLeft (factor (2 ^ L) shape) (first (2 ^ L) shape)],
      ∀ i < shape.size,
        polynomial L (c.coefficients shape representation x.launches (decrypted e)) i =
          (reduce P (polynomial L r i) * polynomial L x.coefficients i) %ₘ (X ^ 2 ^ L + 1)

/-- **Decryption is correct**, for fresh ciphertexts and their sums, differences and products with a
polynomial, as long as the phase does not wrap around. -/
theorem decryption_correct (htwo : 2 ≤ L) (hL : L < 32) (hP : P.toNat.Prime) (hQ : Q.toNat.Prime)
    (c : Compiled memory P Q L) (key : KeyPair c) (shape : Shape)
    (representation : Representation) (x y : Encryption key shape representation) (r : ℕ → ℤ)
    (transformedR : ℕ → Residue 32 Q) (launches : Launches P Q)
    (hr : IsTransform c.ciphertext shape.size (fun k => r k) transformedR)
    (hruns : launches.Runs (2 ^ L) shape.size) :
    Decrypts x y r (c.decrypt shape representation launches
      (operands key.secret x.ciphertext y.ciphertext transformedR)) := by
  obtain ⟨hx, hy, hfactor⟩ := hasCiphertext_operands (c := c) htwo key.secret transformedR
    x.ciphertext y.ciphertext shape
  have hphase := x.hasPhase htwo hL hQ
  have hphase' := y.hasPhase htwo hL hQ
  have hplaintext (z : Encryption key shape representation) :
      IsPlaintext c shape.size representation z.plaintext z.coefficients :=
    isPlaintext_coefficients c htwo hL hP z.runs z.plaintext
  have hmod (z : Encryption key shape representation) (i : ℕ) :
      z.phase i %ₘ (X ^ 2 ^ L + 1) = z.phase i := phase_modByMonic z i
  -- fresh ciphertexts, sums, differences, and products with a polynomial in both orders
  constructor
  · intro hbounded k hk
    refine decrypt_eq htwo hL hP hQ hruns hx hphase (fun i hi => ?_) (hplaintext x)
      (fun i _ => ?_) hk
    · rw [hmod]
      exact hbounded i hi
    · rw [hmod, x.reduce_phase]
  · intro hbounded k hk
    refine decrypt_eq htwo hL hP hQ hruns (hx.add hy) (hphase.add hphase') (fun i hi => ?_)
      ((hplaintext x).add (hplaintext y)) (fun i _ => ?_) hk
    · rw [add_modByMonic, hmod, hmod]
      exact hbounded i hi
    · rw [add_modByMonic, hmod, hmod, map_add, x.reduce_phase, y.reduce_phase, polynomial_add]
  · intro hbounded k hk
    refine decrypt_eq htwo hL hP hQ hruns (hx.subtract hy) (hphase.sub hphase') (fun i hi => ?_)
      ((hplaintext x).sub (hplaintext y)) (fun i _ => ?_) hk
    · rw [sub_modByMonic, hmod, hmod]
      exact hbounded i hi
    · rw [sub_modByMonic, hmod, hmod, map_sub, x.reduce_phase, y.reduce_phase, polynomial_sub]
  · intro hbounded e he i hi
    have hproduct : HasCiphertext (operands key.secret x.ciphertext y.ciphertext transformedR) c.p e
        shape (2 ^ L) (x.ciphertext.mul transformedR) := by
      rw [List.mem_pair] at he
      rcases he with rfl | rfl
      · exact hx.multiply hfactor
      · exact hx.multiplyLeft hfactor
    have hpolynomial := polynomial_castBack c htwo hL hQ hruns hproduct
      (hphase.mul (hr.slots_reduce htwo hL hQ)) hi (hbounded i hi)
    rw [(isPlaintext_decrypt c htwo hL hP hruns _ _).polynomial_coefficients htwo hL hP x.runs hi,
      hpolynomial, reduce_modByMonic, map_mul, x.reduce_phase]

/-- A prime with roots of unity of degree eight, above twice the other one. -/
def ninetySeven : Modulus := ⟨7, .normal, 97, by decide, by decide, by decide⟩

theorem squareCompiles_ninetySeven : ninetySeven.SquareCompiles 32 := by
  constructor
  · rw [Core.Compiletime.divisionCarries_iff (l := 3) (by decide) (by decide +kernel)]
    decide +kernel
  · rw [Core.Compiletime.divisionCarries_iff (l := 3) (by decide) (by decide +kernel)]
    decide +kernel

/-- Some work items, from the first to the last. -/
def items (N : Modulus) (count : ℕ) : Launch (Residue 32 N) :=
  ⟨fun _ => 0, fun _ => 0, fun _ => 0, fun _ => List.range count⟩

/-- A key without noise, of the secret polynomial one. -/
def trivialKey (c : Compiled memory P Q L) (launch : Launch (Residue 32 Q))
    (hruns : launch.Runs (2 ^ L) 1) : KeyPair c where
  s k := if k = 0 then 1 else 0
  e _ := 0
  a _ := 0
  b _ := 0
  key_eq := by simp [polynomial, reduce]
  secret := forward L 1 c.ciphertext.root launch
    fun k => ((if k = 0 then 1 else 0 : ℤ) : Residue 32 Q)
  secret_eq := ⟨launch, hruns, fun _ _ => rfl⟩
  publicA := forward L 1 c.ciphertext.root launch fun _ => 0
  publicA_eq := ⟨launch, hruns, fun _ _ => rfl⟩
  publicB := forward L 1 c.ciphertext.root launch fun _ => 0
  publicB_eq := ⟨launch, hruns, fun _ _ => rfl⟩

/-- An encryption with a mask and without noise. -/
def maskedEncryption {c : Compiled memory P Q L} (key : KeyPair c) (shape : Shape)
    (representation : Representation) (plaintext : ℕ → Residue 32 P) (launches : Launches P Q)
    (hruns : launches.Runs (2 ^ L) shape.size) : Encryption key shape representation where
  plaintext := plaintext
  u _ := 1
  v _ := 0
  w _ := 0
  transformedU := forward L shape.size c.ciphertext.root launches.ciphertext fun _ => ((1 : ℤ) : _)
  transformedU_eq := ⟨launches.ciphertext, hruns.2, fun _ _ => rfl⟩
  transformedV := forward L shape.size c.ciphertext.root launches.ciphertext fun _ => ((0 : ℤ) : _)
  transformedV_eq := ⟨launches.ciphertext, hruns.2, fun _ _ => rfl⟩
  transformedW := forward L shape.size c.ciphertext.root launches.ciphertext fun _ => ((0 : ℤ) : _)
  transformedW_eq := ⟨launches.ciphertext, hruns.2, fun _ _ => rfl⟩
  launches := launches
  runs := hruns

/-- Without noise the phase is the plaintext. -/
theorem bounded_maskedEncryption {c : Compiled memory P Q L} (hPQ : P.toNat < Q.toNat)
    (launch : Launch (Residue 32 Q)) (hlaunch : launch.Runs (2 ^ L) 1) (shape : Shape)
    (representation : Representation) (plaintext : ℕ → Residue 32 P) (launches : Launches P Q)
    (hruns : launches.Runs (2 ^ L) shape.size) (i : ℕ) :
    Bounded Q ((maskedEncryption (trivialKey c launch hlaunch) shape representation plaintext
      launches hruns).phase i) := by
  intro j
  have hzero (i : ℕ) : polynomial L (fun _ => (0 : ℤ)) i = 0 := by simp [polynomial]
  rw [Encryption.phase]
  simp only [maskedEncryption, trivialKey, hzero, zero_mul, mul_zero, add_zero, sub_zero, zero_add]
  rw [modByMonic_of_degree_lt (degree_polynomial_lt _ i)]
  by_cases hj : j < 2 ^ L
  · rw [coeff_polynomial hj]
    have hbounds := Mod.valMinAbs_bounds (c.coefficients shape representation launches plaintext
      (j + i * 2 ^ L)).toZMod
    refine (abs_le.mpr hbounds).trans ?_
    omega
  · rw [coeff_eq_zero_of_degree_lt ((degree_polynomial_lt _ i).trans_le
      (Nat.cast_le.mpr (Nat.not_lt.mp hj))), abs_zero]
    have hone := Q.one_lt
    omega

theorem compiles_seventeen : Compiles seventeen ninetySeven where
  plaintext := ⟨squareCompiles_seventeen.unsigned (by decide +kernel) (by decide +kernel),
    squareCompiles_seventeen, by decide +kernel⟩
  ciphertext := ⟨squareCompiles_ninetySeven.unsigned (by decide +kernel) (by decide +kernel),
    squareCompiles_ninetySeven, by decide +kernel⟩
  toCiphertext := by
    rw [Modulus.ModCompiles, if_pos (by decide)]
    exact squareCompiles_ninetySeven.unsigned (by decide +kernel) (by decide +kernel)
  toPlaintext := by
    rw [Modulus.ModCompiles, if_neg (by decide),
      Core.Compiletime.divisionCarries_iff (l := 3) (by decide) (by decide +kernel)]
    exact ⟨⟨rfl, by decide +kernel⟩, by decide,
      squareCompiles_seventeen.unsigned (by decide +kernel) (by decide +kernel)⟩
  p := squareCompiles_ninetySeven.unsigned (by decide +kernel) (by decide +kernel)

theorem decryption_correct_seventeen :
    ∃ (c : Compiled (fun _ => 0) seventeen ninetySeven 2) (key : KeyPair c)
      (x : Encryption key [.dynamic 2] .numberTheoreticTransform),
      (∀ k, x.plaintext k = k) ∧ ∀ k < 2 * 2 ^ 2,
        c.decrypt [.dynamic 2] .numberTheoreticTransform ⟨items _ 4, items _ 4⟩
          (operands key.secret x.ciphertext x.ciphertext x.transformedU)
          (first (2 ^ 2) [.dynamic 2]) k = k := by
  obtain ⟨c⟩ : Nonempty (Compiled (fun _ => 0) seventeen ninetySeven 2) :=
    nonempty_compiled (by decide) (by decide) (by decide) (by decide) (by decide)
      compiles_seventeen
  have hruns : Launches.Runs ⟨items seventeen 4, items ninetySeven 4⟩ (2 ^ 2)
      (Shape.size [.dynamic 2]) := ⟨fun _ => List.Perm.refl _, fun _ => List.Perm.refl _⟩
  have hlaunch : (items ninetySeven 2).Runs (2 ^ 2) 1 := fun _ => List.Perm.refl _
  let key := trivialKey c _ hlaunch
  let x := maskedEncryption key [.dynamic 2] .numberTheoreticTransform (fun k => k) _ hruns
  refine ⟨c, key, x, fun _ => rfl, fun k hk => ?_⟩
  have hdecrypts := decryption_correct le_rfl (by decide) (by decide) (by decide) c key
    [.dynamic 2] .numberTheoreticTransform x x x.u x.transformedU _ x.transformedU_eq hruns
  exact hdecrypts.fresh (fun i _ => bounded_maskedEncryption (by decide) _ hlaunch _ _ _ _ hruns i)
    k hk

end

end Hmpc.Expr.Lhe
