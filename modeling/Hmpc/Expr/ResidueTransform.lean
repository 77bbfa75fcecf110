/-
# Hmpc.Expr.ResidueTransform -- the transforms of polynomials modulo a prime

The kernels run on the residues of `mod<Modulus>`. Their constants are computed at compile time: a
root of unity of degree `2 * n`, its inverse, and the inverse of `n`. The constructors of the two
expressions drop a transform right behind its inverse.
-/
import Hmpc.Expr.NumberTheoreticTransform
import Hmpc.Ints.Invert
import Hmpc.Ints.RootOfUnity

namespace Hmpc.Expr.NumberTheoreticTransform

open Hmpc.Core Hmpc.Ints Hmpc.Lib Hmpc.Lib.Ntt Polynomial

/-! ## The constants -/

/-- `ubigint<32>{limb_type{vector_size}}`; its limbs are those of `default_limb`. -/
def vectorSizeInteger (iterationCount : ℕ) : BitArray 32 where
  type := ⟨32, .unsigned, .normal⟩
  limbs := [BitVec.ofNat 32 (2 ^ iterationCount)]
  limb_size := by simp [SpanType.limbSize, limbSizeFor]

/-- `normalization` -/
def normalization (memory : ℕ → BitVec 32) (N : Modulus) (iterationCount : ℕ) :
    Option (Mod 32 N) := do
  Mod.invert memory (← Mod.ofUnsigned memory N (vectorSizeInteger iterationCount))

/-- What the expressions are compiled with. There is none when a constant does not compile. -/
structure Constants (memory : ℕ → BitVec 32) (N : Modulus) (iterationCount : ℕ) where
  candidates : List (Residue 32 N)
  root : Residue 32 N
  root_eq : Residue.rootOfUnity (2 * 2 ^ iterationCount) candidates = some root
  inverseRoot : Residue 32 N
  inverseRoot_eq : Mod.invert memory root.val = some inverseRoot.val
  factor : Residue 32 N
  factor_eq : normalization memory N iterationCount = some factor.val

section

variable (memory : ℕ → BitVec 32) {N : Modulus} {L : ℕ}

theorem toInt_vectorSizeInteger (hL : L < 32) : (vectorSizeInteger L).toInt = (2 ^ L : ℕ) := by
  have hlt : 2 ^ L < 2 ^ 32 := Nat.pow_lt_pow_right one_lt_two hL
  show ((Lib.Limbs.value [BitVec.ofNat 32 (2 ^ L)] : ℕ) : ℤ) % 2 ^ 32 = _
  rw [Lib.Limbs.value_cons, Lib.Limbs.value_nil, Nat.mul_zero, Nat.add_zero, BitVec.toNat_ofNat,
    Nat.mod_eq_of_lt hlt]
  exact Int.emod_eq_of_lt (Int.natCast_nonneg _) (by exact_mod_cast hlt)

theorem normalized_vectorSizeInteger : Bigint.Normalized (vectorSizeInteger L) :=
  ⟨nofun, fun hfull => (hfull (Nat.mod_self 32)).elim⟩

/-- The inverse of the number of coefficients. -/
theorem normalization_definedWhen (hL : L < 32) :
    DefinedWhen (N.UnsignedCompiles 32 32 ∧ N.CubedCompiles 32) (normalization memory N L)
      fun b => ∃ factor : Residue 32 N, b = factor.val ∧ factor * 2 ^ L = 1 := by
  have hreturns :=
    Mod.returns_ofUnsigned (N := N) memory (normalized_vectorSizeInteger (L := L)) rfl
  rw [toInt_vectorSizeInteger hL] at hreturns
  refine hreturns.bind fun a ⟨hreduced, hvalue⟩ => ?_
  have hcast : a.toZMod = ((2 ^ L : ℕ) : ZMod N.toNat) := by
    rw [← Mod.cast_toUnsigned memory hreduced, hvalue]
    exact_mod_cast ZMod.natCast_mod _ _
  -- a power of two is invertible, as the modulus is odd
  have hunit : IsUnit a.toZMod := by
    rw [hcast]
    exact (ZMod.isUnit_iff_coprime _ _).mpr (N.coprime_two_pow L)
  refine (Mod.invert_definedWhen memory hreduced hunit).imp fun b ⟨hreduced', hone⟩ => ?_
  refine ⟨⟨b, hreduced'⟩, rfl, Residue.toZMod_injective ?_⟩
  have hpow : (2 ^ L : Residue 32 N).toZMod = a.toZMod := by
    rw [hcast]
    exact (map_pow (Residue.ringEquiv 32 N) 2 L).trans (by rw [map_ofNat]; push_cast; rfl)
  rw [Residue.toZMod_mul, hpow, mul_comm]
  exact hone.trans (map_one (Residue.ringEquiv 32 N)).symm

/-- The inverse of the root. -/
theorem invert_root_definedWhen {root : Residue 32 N} (hunit : IsUnit root) :
    DefinedWhen (N.CubedCompiles 32) (Mod.invert memory root.val)
      fun b => ∃ inverseRoot : Residue 32 N, b = inverseRoot.val ∧ root * inverseRoot = 1 := by
  refine (Mod.invert_definedWhen memory root.reduced (hunit.map (Residue.ringEquiv 32 N))).imp
    fun b ⟨hreduced, hone⟩ => ?_
  refine ⟨⟨b, hreduced⟩, rfl, Residue.toZMod_injective ?_⟩
  rw [Residue.toZMod_mul]
  exact hone.trans (map_one (Residue.ringEquiv 32 N)).symm

variable {memory}

namespace Constants

variable (c : Constants memory N L)

theorem isUnit_root : IsUnit c.root :=
  Residue.isUnit_of_isRootOfUnity (by positivity) (Residue.isRootOfUnity_of_rootOfUnity c.root_eq)

theorem root_mul_inverseRoot : c.root * c.inverseRoot = 1 := by
  obtain ⟨inverseRoot, heq, hone⟩ :=
    (invert_root_definedWhen memory c.isUnit_root).post c.inverseRoot_eq
  rwa [Residue.ext heq]

theorem factor_mul_two_pow (hL : L < 32) : c.factor * 2 ^ L = 1 := by
  obtain ⟨factor, heq, hone⟩ := (normalization_definedWhen memory hL).post c.factor_eq
  rwa [Residue.ext heq]

/-- The root behind the slots, modulo a prime. -/
theorem root_pow (hprime : N.toNat.Prime) : c.root ^ 2 ^ L = -1 :=
  Residue.pow_eq_neg_one hprime (Residue.isRootOfUnity_of_rootOfUnity c.root_eq)

end Constants

/-- There are constants modulo a prime, when the factors for the number of coefficients and for
inverses compile. -/
theorem nonempty_constants (hL : L < 32) (hprime : N.toNat.Prime)
    (hmodulus : N.toNat ≡ 1 [MOD 2 * 2 ^ L]) (hunsigned : N.UnsignedCompiles 32 32)
    (hcubed : N.CubedCompiles 32) : Nonempty (Constants memory N L) := by
  obtain ⟨x, hx⟩ := Residue.exists_candidate (w := 32) hprime (Nat.two_pow_pos L) hmodulus
  obtain ⟨root, hroot⟩ := Option.isSome_iff_exists.mp (hx [x] (List.mem_singleton_self x))
  have hunit := Residue.isUnit_of_isRootOfUnity (by positivity)
    (Residue.isRootOfUnity_of_rootOfUnity hroot)
  obtain ⟨_, hinverse, inverseRoot, rfl, -⟩ := (invert_root_definedWhen memory hunit).result hcubed
  obtain ⟨_, hfactor, factor, rfl, -⟩ :=
    (normalization_definedWhen memory (N := N) hL).result ⟨hunsigned, hcubed⟩
  exact ⟨⟨[x], root, hroot, inverseRoot, hinverse, factor, hfactor⟩⟩

/-! ## The transforms of expressions -/

/-- An expression of polynomials: its transforms, the operators between elements, and everything
else by its elements. -/
inductive PolyExpression (R : Type)
  | elements (values : ℕ → R)
  | operator (operation : R → R → R) (left right : PolyExpression R)
  | transform (isInverse : Bool) (inner : PolyExpression R)

namespace PolyExpression

variable {R : Type}

/-- `number_theoretic_transform(e)` -/
def numberTheoreticTransform : PolyExpression R → PolyExpression R
  | transform true e => e
  | e => transform false e

/-- `inverse_number_theoretic_transform(e)` -/
def inverseNumberTheoreticTransform : PolyExpression R → PolyExpression R
  | transform false e => e
  | e => transform true e

/-- The expression that is built with these functions, instead of the constructors. -/
def simplified : PolyExpression R → PolyExpression R
  | elements values => elements values
  | operator operation left right => operator operation left.simplified right.simplified
  | transform false inner => numberTheoreticTransform inner.simplified
  | transform true inner => inverseNumberTheoreticTransform inner.simplified

/-- The elements of `m` polynomials; every transform has a launch of its own. -/
def evaluate (c : Constants memory N L) (m : ℕ)
    (launch : PolyExpression (Residue 32 N) → Launch (Residue 32 N)) :
    PolyExpression (Residue 32 N) → ℕ → Residue 32 N
  | elements values => values
  | operator operation left right =>
      fun k => operation (left.evaluate c m launch k) (right.evaluate c m launch k)
  | e@(transform false inner) => forward L m c.root (launch e) (inner.evaluate c m launch)
  | e@(transform true inner) =>
      inverse L m c.inverseRoot c.factor (launch e) (inner.evaluate c m launch)

end PolyExpression

section

variable {R : Type} [CommRing R] {m : ℕ} {root factor : R} {launch launch' : Launch R}

/-- An element belongs to a polynomial. -/
theorem position_lt {k : ℕ} (hk : k < m * 2 ^ L) :
    k / 2 ^ L < m ∧ k % 2 ^ L < 2 ^ L ∧ k % 2 ^ L + k / 2 ^ L * 2 ^ L = k :=
  ⟨Nat.div_lt_of_lt_mul (by rwa [Nat.mul_comm]), Nat.mod_lt _ (Nat.two_pow_pos L), by
    rw [Nat.mul_comm]
    exact Nat.mod_add_div k _⟩

theorem position_of_lt {i p : ℕ} (hi : i < m) (hp : p < 2 ^ L) : p + i * 2 ^ L < m * 2 ^ L :=
  calc p + i * 2 ^ L < 2 ^ L + i * 2 ^ L := Nat.add_lt_add_right hp _
    _ = (i + 1) * 2 ^ L := by ring
    _ ≤ m * 2 ^ L := Nat.mul_le_mul_right _ hi

/-- A transform reads the elements of the polynomials only, whatever the launch. -/
theorem forward_congr (htwo : 2 ≤ L) (hL : L < 32) (hruns : launch.Runs (2 ^ L) m)
    (hruns' : launch'.Runs (2 ^ L) m) {x x' : ℕ → R} (hx : ∀ k < m * 2 ^ L, x k = x' k) {k : ℕ}
    (hk : k < m * 2 ^ L) : forward L m root launch x k = forward L m root launch' x' k := by
  obtain ⟨hi, hp, hposition⟩ := position_lt hk
  rw [← hposition, forward_eq htwo hL hruns x hi hp, forward_eq htwo hL hruns' x' hi hp]
  exact forwardStages_congr (fun _ _ => rfl) (fun p hp => hx _ (position_of_lt hi hp)) le_rfl hp

theorem inverse_congr (htwo : 2 ≤ L) (hL : L < 32) (hruns : launch.Runs (2 ^ L) m)
    (hruns' : launch'.Runs (2 ^ L) m) {x x' : ℕ → R} (hx : ∀ k < m * 2 ^ L, x k = x' k) {k : ℕ}
    (hk : k < m * 2 ^ L) :
    inverse L m root factor launch x k = inverse L m root factor launch' x' k := by
  obtain ⟨hi, hp, hposition⟩ := position_lt hk
  rw [← hposition, inverse_eq htwo hL hruns x hi hp, inverse_eq htwo hL hruns' x' hi hp]
  exact congrArg (factor * ·) (inverseStages_congr (fun _ _ => rfl)
    (fun p hp => hx _ (position_of_lt hi hp)) le_rfl hp)

end

section

variable {m : ℕ} (c : Constants memory N L)

/-- The inverse transform undoes the transform, -/
theorem Constants.inverse_forward (htwo : 2 ≤ L) (hL : L < 32)
    {launch launch' : Launch (Residue 32 N)} (hruns : launch.Runs (2 ^ L) m)
    (hruns' : launch'.Runs (2 ^ L) m) (x : ℕ → Residue 32 N) {k : ℕ} (hk : k < m * 2 ^ L) :
    inverse L m c.inverseRoot c.factor launch' (forward L m c.root launch x) k = x k := by
  obtain ⟨hi, hp, hposition⟩ := position_lt hk
  rw [← hposition]
  exact NumberTheoreticTransform.inverse_forward htwo hL c.root_mul_inverseRoot
    (c.factor_mul_two_pow hL) hruns hruns' x hi hp

/-- and the other way round. -/
theorem Constants.forward_inverse (htwo : 2 ≤ L) (hL : L < 32)
    {launch launch' : Launch (Residue 32 N)} (hruns : launch.Runs (2 ^ L) m)
    (hruns' : launch'.Runs (2 ^ L) m) (y : ℕ → Residue 32 N) {k : ℕ} (hk : k < m * 2 ^ L) :
    forward L m c.root launch (inverse L m c.inverseRoot c.factor launch' y) k = y k := by
  obtain ⟨hi, hp, hposition⟩ := position_lt hk
  rw [← hposition]
  exact NumberTheoreticTransform.forward_inverse htwo hL c.root_mul_inverseRoot
    (c.factor_mul_two_pow hL) hruns hruns' y hi hp

namespace PolyExpression

variable {launch : PolyExpression (Residue 32 N) → Launch (Residue 32 N)}

/-- Dropping a transform and its inverse keeps the elements. -/
theorem evaluate_numberTheoreticTransform (htwo : 2 ≤ L) (hL : L < 32)
    (hruns : ∀ e, (launch e).Runs (2 ^ L) m) (e : PolyExpression (Residue 32 N)) {k : ℕ}
    (hk : k < m * 2 ^ L) : e.numberTheoreticTransform.evaluate c m launch k =
      (transform false e).evaluate c m launch k := by
  unfold numberTheoreticTransform
  split
  · simp only [evaluate]
    exact (c.forward_inverse htwo hL (hruns _) (hruns _) _ hk).symm
  · rfl

theorem evaluate_inverseNumberTheoreticTransform (htwo : 2 ≤ L) (hL : L < 32)
    (hruns : ∀ e, (launch e).Runs (2 ^ L) m) (e : PolyExpression (Residue 32 N)) {k : ℕ}
    (hk : k < m * 2 ^ L) : e.inverseNumberTheoreticTransform.evaluate c m launch k =
      (transform true e).evaluate c m launch k := by
  unfold inverseNumberTheoreticTransform
  split
  · simp only [evaluate]
    exact (c.inverse_forward htwo hL (hruns _) (hruns _) _ hk).symm
  · rfl

/-- Simplification keeps the elements of every expression. -/
theorem evaluate_simplified (htwo : 2 ≤ L) (hL : L < 32)
    (hruns : ∀ e, (launch e).Runs (2 ^ L) m) (e : PolyExpression (Residue 32 N)) :
    ∀ k < m * 2 ^ L, e.simplified.evaluate c m launch k = e.evaluate c m launch k := by
  induction e with
  | elements values => exact fun _ _ => rfl
  | operator operation left right ihl ihr =>
      intro k hk
      simp only [simplified, evaluate, ihl k hk, ihr k hk]
  | transform isInverse inner ih =>
      intro k hk
      cases isInverse with
      | false =>
          rw [simplified, evaluate_numberTheoreticTransform c htwo hL hruns _ hk]
          exact forward_congr htwo hL (hruns _) (hruns _) ih hk
      | true =>
          rw [simplified, evaluate_inverseNumberTheoreticTransform c htwo hL hruns _ hk]
          exact inverse_congr htwo hL (hruns _) (hruns _) ih hk

end PolyExpression

end

/-! ## What the transforms compute -/

/-- **The transform is multiplicative.** A slot is a value of the polynomial at an odd power of the
root, so that the products of slots are those of the products modulo `X ^ n + 1`. -/
theorem forward_multiplicative {w : ℕ} [NeZero w] {phi : Residue w N} {m : ℕ} (htwo : 2 ≤ L)
    (hL : L < 32) (hphi : phi ^ 2 ^ L = -1) (launches : Fin 3 → Launch (Residue w N))
    (hruns : ∀ l, (launches l).Runs (2 ^ L) m) :
    (∀ x : ℕ → Residue w N, ∀ i < m, ∀ k < 2 ^ L,
      forward L m phi (launches 0) x (k + i * 2 ^ L) =
        ∑ j ∈ Finset.range (2 ^ L),
          x (j + i * 2 ^ L) * phi ^ (j * (2 * reverseBits L k + 1))) ∧
    ∀ x y z : ℕ → Residue w N,
      (∀ i < m, ∀ j < 2 ^ L,
        z (j + i * 2 ^ L) =
          ((polynomial L x i * polynomial L y i) %ₘ (X ^ 2 ^ L + 1)).coeff j) →
      ∀ k < m * 2 ^ L,
        forward L m phi (launches 0) x k * forward L m phi (launches 1) y k =
          forward L m phi (launches 2) z k := by
  constructor
  · intro x i hi k hk
    exact forward_values htwo hL hphi (hruns 0) x hi hk
  · intro x y z hz k hk
    obtain ⟨hi, hp, hposition⟩ := position_lt hk
    rw [← hposition]
    exact forward_product htwo hL hphi hruns hz hi hp

/-- A prime with roots of unity of degree eight. -/
def seventeen : Modulus := ⟨5, .normal, 17, by decide, by decide, by decide⟩

/-- Every kernel runs two work items, from the last to the first. -/
def twoItems : Launch (Residue 32 seventeen) :=
  ⟨fun _ => 0, fun _ => 0, fun _ => 0, fun _ => [1, 0]⟩

theorem runs_twoItems : twoItems.Runs (2 ^ 2) 1 := fun _ => List.Perm.swap 0 1 []

theorem forward_multiplicative_seventeen :
    let phi : Residue 32 seventeen := Residue.ofZMod 2
    let x : ℕ → Residue 32 seventeen := fun k => k
    phi ^ 2 ^ 2 = -1 ∧ forward 2 1 phi twoItems x (1 + 0 * 2 ^ 2) =
      ∑ j ∈ Finset.range (2 ^ 2), x (j + 0 * 2 ^ 2) * phi ^ (j * (2 * reverseBits 2 1 + 1)) := by
  intro phi x
  have hphi : phi ^ 2 ^ 2 = -1 := by
    have hvalue : Residue.ringEquiv 32 seventeen phi = 2 :=
      (Residue.ringEquiv 32 seventeen).apply_symm_apply 2
    apply (Residue.ringEquiv 32 seventeen).injective
    rw [map_pow, map_neg, map_one, hvalue]
    decide
  exact ⟨hphi, (forward_multiplicative le_rfl (by decide) hphi (fun _ => twoItems)
    fun _ => runs_twoItems).1 x 0 one_pos 1 (by decide)⟩

/-- **The transforms are inverse to each other**, whatever the constants they are compiled with, and
the simplification of expressions keeps their elements. -/
theorem transforms_inverse (htwo : 2 ≤ L) (hL : L < 32) (c : Constants memory N L) (m : ℕ) :
    (∀ launch launch' : Launch (Residue 32 N), launch.Runs (2 ^ L) m → launch'.Runs (2 ^ L) m →
      ∀ x, ∀ k < m * 2 ^ L,
        inverse L m c.inverseRoot c.factor launch' (forward L m c.root launch x) k = x k ∧
        forward L m c.root launch (inverse L m c.inverseRoot c.factor launch' x) k = x k) ∧
    ∀ launch : PolyExpression (Residue 32 N) → Launch (Residue 32 N),
      (∀ e, (launch e).Runs (2 ^ L) m) → ∀ e : PolyExpression (Residue 32 N), ∀ k < m * 2 ^ L,
        e.simplified.evaluate c m launch k = e.evaluate c m launch k := by
  constructor
  · intro launch launch' hruns hruns' x k hk
    exact ⟨c.inverse_forward htwo hL hruns hruns' x hk,
      c.forward_inverse htwo hL hruns hruns' x hk⟩
  · intro launch hruns e
    exact PolyExpression.evaluate_simplified c htwo hL hruns e

theorem squareCompiles_seventeen : seventeen.SquareCompiles 32 := by
  constructor
  · rw [Core.Compiletime.divisionCarries_iff (l := 3) (by decide) (by decide +kernel)]
    decide +kernel
  · rw [Core.Compiletime.divisionCarries_iff (l := 3) (by decide) (by decide +kernel)]
    decide +kernel

theorem transforms_inverse_seventeen :
    ∃ c : Constants (fun _ => 0) seventeen 2, ∀ x, ∀ k < 1 * 2 ^ 2,
      inverse 2 1 c.inverseRoot c.factor twoItems (forward 2 1 c.root twoItems x) k = x k := by
  obtain ⟨c⟩ : Nonempty (Constants (fun _ => 0) seventeen 2) :=
    nonempty_constants (by decide) (by decide) (by decide)
      (squareCompiles_seventeen.unsigned (by decide +kernel) (by decide +kernel))
      ⟨squareCompiles_seventeen, by decide +kernel⟩
  exact ⟨c, fun x k hk => ((transforms_inverse le_rfl (by decide) c 1).1 twoItems twoItems
    runs_twoItems runs_twoItems x k hk).1⟩

end

end Hmpc.Expr.NumberTheoreticTransform
