/-
# Hmpc.Expr.Lhe.Randomness -- parameters for which decryption never fails

The randomness of an encryption is drawn: from centered binomial distributions, and for drowning
from all signed integers of some bits. Either source has a limit for what it draws, whatever the
generator yields. So whether a circuit decrypts can be computed from the two moduli, the variances
and the bounds on the key and on the factors: `randomness_suffices`.
-/
import Hmpc.Expr.Lhe.Circuit
import Hmpc.Random.Binomial
import Hmpc.Random.SignedUniform
import Mathlib.Tactic.NormNum.Prime

namespace Hmpc.Expr.Lhe

open Hmpc.Core Hmpc.Ints Hmpc.Crypto Hmpc.Random Hmpc.Lib NumberTheoreticTransform
  ArrayExpression Polynomial

/-! ## Sources -/

/-- The random expressions that `randomness` and `drowning_randomness` transform. -/
inductive Source
  | centeredBinomial (variance : Binomial.Variance)
  | drownSignedUniform (bound : BitArray 32) (security : ℕ)

namespace Source

variable (t : ChachaType) (memory : ℕ → Word) (Q : Modulus)

/-- `operator()` of the random expressions, with the generator of the work item. -/
def draw (random : NumberGenerator) : Source → Option (Mod 32 Q)
  | centeredBinomial variance =>
      (Binomial.centeredBinomial t memory variance random).1.bind (Mod.ofSigned memory Q)
  | drownSignedUniform bound security =>
      Mod.ofSigned memory Q (Uniform.drownUniform t memory bound .signed security random).1

/-- How far from zero a source draws. -/
def limit : Source → ℤ
  | centeredBinomial variance => variance.mean
  | drownSignedUniform bound security => 2 ^ (Uniform.drownBits memory bound .signed security - 1)

/-- What is drawn for drowning has no limb that is cut off. -/
def FillsLimbs : Source → Prop
  | centeredBinomial _ => True
  | drownSignedUniform bound security => Uniform.drownBits memory bound .signed security % 32 = 0

/-- The bits of what a source draws. -/
def bitSize : Source → ℕ
  | centeredBinomial variance => variance.valueType.bitSize
  | drownSignedUniform bound security => Uniform.drownBits memory bound .signed security

variable {t memory Q}

variable (memory) in
/-- A centered binomial sample is normalized, and at most the mean away from zero. -/
theorem normalized_centeredBinomial (variance : Binomial.Variance) (random : NumberGenerator) :
    ∃ value : BitArray 32,
      (Binomial.centeredBinomial t memory variance random).1 = some value ∧
        Bigint.Normalized value ∧ value.type = variance.valueType ∧
          |value.toInt| ≤ variance.mean := by
  let bits := (NumberGenerator.uniform t ⟨⟨variance.bitCount, .unsigned, .unnormal⟩,
    Bigint.uninitialized memory (limbSizeFor 32 variance.bitCount)⟩ random).1
  have hle := Binomial.ones_le bits variance.bitCount
  have hbits := variance.bitCount_le
  have hpos : 0 < variance.bitCount := variance.pos
  obtain ⟨hcount, hones⟩ : Bigint.Normalized ((Binomial.valueType variance.bitCount).array 32
      (Binomial.ones bits variance.bitCount)) ∧ _ :=
    Bigint.array_normalized (fun h => by cases h) (Binomial.inRange_ones bits le_rfl)
  have hdenotes := hcount.denotes
  rw [hones] at hdenotes
  obtain ⟨hnormalized, hvalue⟩ : Bigint.Normalized (variance.valueType.array 32 _) ∧ _ :=
    Bigint.array_normalized (fun _ => Nat.succ_pos _) (variance.inRange_sub_mean hle)
  refine ⟨_, ?_, hnormalized, rfl, ?_⟩
  · show (Binomial.sumBits memory variance.bitCount bits).map (variance.subtractMean memory) = _
    rw [Binomial.sumBits_eq memory hpos, Option.map_some,
      variance.subtractMean_eq_array memory hdenotes]
  · rw [hvalue, abs_le]
    omega

/-- A drowning sample that fills its limbs is normalized, with these bits and a sign. -/
theorem normalized_drownUniform {random : NumberGenerator} (h : random.Ready)
    {bound : BitArray 32} {security : ℕ}
    (hfull : FillsLimbs memory (drownSignedUniform bound security)) :
    Bigint.Normalized (Uniform.drownUniform t memory bound .signed security random).1 ∧
      |(Uniform.drownUniform t memory bound .signed security random).1.toInt| ≤
        limit memory (drownSignedUniform bound security) := by
  have hpos : 0 < Uniform.drownBits memory bound .signed security := Nat.succ_pos _
  have hrange := Bigint.toInt_inRange
    (Uniform.drownUniform t memory bound .signed security random).1
  obtain ⟨hlow, hhigh⟩ := (SpanType.inRange_signed _ rfl hpos).mp hrange
  exact ⟨(Uniform.normalized_uniform_signed_iff h memory hpos).mpr (Or.inl hfull),
    abs_le.mpr ⟨hlow, hhigh.le⟩⟩

/-- What a source draws before the conversion. -/
theorem exists_value {source : Source} (hfull : source.FillsLimbs memory)
    {random : NumberGenerator} (h : random.Ready) :
    ∃ value : BitArray 32, source.draw t memory Q random = Mod.ofSigned memory Q value ∧
      Bigint.Normalized value ∧ value.type.signedness = .signed ∧
        value.type.bitSize = source.bitSize memory ∧ |value.toInt| ≤ source.limit memory := by
  cases source with
  | centeredBinomial variance =>
      obtain ⟨value, hvalue, hnormalized, htype, hle⟩ := normalized_centeredBinomial
        (t := t) memory variance random
      exact ⟨value, by rw [draw, hvalue, Option.bind_some], hnormalized, by rw [htype]; rfl,
        by rw [htype]; rfl, hle⟩
  | drownSignedUniform bound security =>
      obtain ⟨hnormalized, hle⟩ := normalized_drownUniform (t := t) h hfull
      exact ⟨_, rfl, hnormalized, rfl, rfl, hle⟩

/-- A source draws if the conversion compiles. -/
theorem exists_draw {source : Source} (hfull : source.FillsLimbs memory)
    (hcompiles : Q.SignedCompiles 32 (source.bitSize memory)) {random : NumberGenerator}
    (h : random.Ready) : ∃ a : Residue 32 Q, source.draw t memory Q random = some a.val := by
  obtain ⟨value, hdraw, hnormalized, hs, hbits, -⟩ := exists_value (t := t) (Q := Q) hfull h
  rw [← hbits] at hcompiles
  obtain ⟨a, ha, hholds⟩ := (Mod.returns_ofSigned memory hnormalized hs).result hcompiles
  exact ⟨⟨a, hholds.1⟩, hdraw.trans ha⟩

/-- A conversion takes a small integer to a residue of the same absolute value or less. -/
theorem abs_valMinAbs_le {value : BitArray 32} (hvalue : Bigint.Normalized value)
    (hs : value.type.signedness = .signed) {a : Residue 32 Q}
    (ha : Mod.ofSigned memory Q value = some a.val) : |a.toZMod.valMinAbs| ≤ |value.toInt| := by
  have hholds := (Mod.returns_ofSigned (N := Q) memory hvalue hs).post ha
  have hcast : ((a.toZMod.valMinAbs : ℤ) : ZMod Q.toNat) = (value.toInt : ZMod Q.toNat) := by
    rw [ZMod.coe_valMinAbs, eq_intCast_of_holds hholds, toZMod_intCast]
  have hle := ZMod.natAbs_min_of_le_div_two Q.toNat _ _ hcast (ZMod.natAbs_valMinAbs_le _)
  rw [Int.abs_eq_natAbs, Int.abs_eq_natAbs]
  exact_mod_cast hle

/-- **Everything that a source draws is within its limit.** -/
theorem abs_draw_le {source : Source} (hfull : source.FillsLimbs memory)
    {random : NumberGenerator} (h : random.Ready) {a : Residue 32 Q}
    (ha : source.draw t memory Q random = some a.val) :
    |a.toZMod.valMinAbs| ≤ source.limit memory := by
  obtain ⟨value, hdraw, hnormalized, hs, -, hle⟩ := exists_value (t := t) (Q := Q) hfull h
  exact (abs_valMinAbs_le hnormalized hs (hdraw.symm.trans ha)).trans hle

end Source

/-! ## Random encryptions -/

/-- What `u`, `v` and `w` are drawn from. -/
structure Sources where
  u : Source
  v : Source
  w : Source

/-- `randomness<T>(shape, variance_u, variance_v, variance_w)` -/
def randomness (varianceU varianceV varianceW : Binomial.Variance) : Sources :=
  ⟨.centeredBinomial varianceU, .centeredBinomial varianceV, .centeredBinomial varianceW⟩

/-- `drowning_randomness<T>(shape, bound, variance_u, variance_w)` -/
def drowningRandomness (bound : BitArray 32) (security : ℕ)
    (varianceU varianceW : Binomial.Variance) : Sources :=
  ⟨.centeredBinomial varianceU, .drownSignedUniform bound security, .centeredBinomial varianceW⟩

/-- No source cuts off a limb. -/
def Sources.FillLimbs (memory : ℕ → Word) (sources : Sources) : Prop :=
  sources.u.FillsLimbs memory ∧ sources.v.FillsLimbs memory ∧ sources.w.FillsLimbs memory

/-- The bounds of a key, and of the randomness of an encryption with it. -/
def Sources.bounds (memory : ℕ → Word) (sources : Sources) (s e : ℤ) : NoiseBounds :=
  ⟨s, e, sources.u.limit memory, sources.v.limit memory, sources.w.limit memory⟩

section

variable {t : ChachaType} {memory : ℕ → Word} {P Q : Modulus} {L : ℕ}

/-- `number_theoretic_transform` of a random expression: its elements, each drawn with a generator
of its own, and their transforms. -/
structure Sampled (t : ChachaType) (c : Compiled memory P Q L) (m : ℕ) (source : Source) where
  element : ℕ → Residue 32 Q
  drawn : ∀ k < m * 2 ^ L, ∃ random : NumberGenerator, random.Ready ∧
    source.draw t memory Q random = some (element k).val
  transformed : ℕ → Residue 32 Q
  isTransform : IsTransform c.ciphertext m element transformed

namespace Sampled

variable {c : Compiled memory P Q L} {m : ℕ} {source : Source} (x : Sampled t c m source)

/-- The elements as small integers. -/
def centered (k : ℕ) : ℤ := (x.element k).toZMod.valMinAbs

theorem intCast_centered (k : ℕ) : ((x.centered k : ℤ) : Residue 32 Q) = x.element k := by
  apply Residue.toZMod_injective
  rw [toZMod_intCast]
  exact ZMod.coe_valMinAbs _

theorem isTransform_centered :
    IsTransform c.ciphertext m (fun k => x.centered k) x.transformed := by
  simp only [intCast_centered]
  exact x.isTransform

theorem abs_centered_le (hfull : source.FillsLimbs memory) {k : ℕ} (hk : k < m * 2 ^ L) :
    |x.centered k| ≤ source.limit memory := by
  obtain ⟨random, hready, hdraw⟩ := x.drawn k hk
  exact Source.abs_draw_le hfull hready hdraw

/-- Any generators fill a tensor, if the conversion compiles. -/
theorem exists_sampled (source : Source) (c : Compiled memory P Q L)
    (hfull : source.FillsLimbs memory)
    (hcompiles : Q.SignedCompiles 32 (source.bitSize memory)) (launch : Launch (Residue 32 Q))
    (hruns : launch.Runs (2 ^ L) m) (generator : ℕ → NumberGenerator)
    (hready : ∀ k, (generator k).Ready) :
    ∃ x : Sampled t c m source,
      ∀ k, source.draw t memory Q (generator k) = some (x.element k).val := by
  choose element helement using fun k =>
    Source.exists_draw (t := t) hfull hcompiles (hready k)
  exact ⟨⟨element, fun k _ => ⟨generator k, hready k, helement k⟩,
    forward L m c.ciphertext.root launch element, ⟨launch, hruns, fun _ _ => rfl⟩⟩, helement⟩

end Sampled

/-- The three tensors of `randomness` or of `drowning_randomness`. -/
structure Randomness (t : ChachaType) (c : Compiled memory P Q L) (shape : Shape)
    (sources : Sources) where
  u : Sampled t c shape.size sources.u
  v : Sampled t c shape.size sources.v
  w : Sampled t c shape.size sources.w

namespace Randomness

variable {c : Compiled memory P Q L} {shape : Shape} {sources : Sources}

/-- `enc(key, plaintext, randomness)` -/
def encryption (random : Randomness t c shape sources) (key : KeyPair c)
    (representation : Representation) (plaintext : ℕ → Residue 32 P) (launches : Launches P Q)
    (hruns : launches.Runs (2 ^ L) shape.size) : Encryption key shape representation where
  plaintext := plaintext
  u := random.u.centered
  v := random.v.centered
  w := random.w.centered
  transformedU := random.u.transformed
  transformedU_eq := random.u.isTransform_centered
  transformedV := random.v.transformed
  transformedV_eq := random.v.isTransform_centered
  transformedW := random.w.transformed
  transformedW_eq := random.w.isTransform_centered
  launches := launches
  runs := hruns

/-- An encryption with a small key keeps the bounds of its sources. -/
theorem within_encryption (random : Randomness t c shape sources)
    (hsources : sources.FillLimbs memory) {key : KeyPair c} {s e : ℤ}
    (hs : ∀ k < 2 ^ L, |key.s k| ≤ s) (he : ∀ k < 2 ^ L, |key.e k| ≤ e)
    (representation : Representation) (plaintext : ℕ → Residue 32 P) (launches : Launches P Q)
    (hruns : launches.Runs (2 ^ L) shape.size) :
    (random.encryption key representation plaintext launches hruns).Within
      (sources.bounds memory s e) where
  s := hs
  e := he
  u _ hk := random.u.abs_centered_le hsources.1 hk
  v _ hk := random.v.abs_centered_le hsources.2.1 hk
  w _ hk := random.w.abs_centered_le hsources.2.2 hk

end Randomness

/-- **Parameters that suffice.** If the moduli leave room for the noise of a circuit, computed from
the limits of the sources and from the bounds of the key and of the factors, then whatever is drawn
the circuit decrypts. -/
theorem randomness_suffices (htwo : 2 ≤ L) (hL : L < 32) (hP : P.toNat.Prime)
    (hQ : Q.toNat.Prime) {c : Compiled memory P Q L} {key : KeyPair c} {shape : Shape}
    {representation : Representation} {sources : Sources} (hsources : sources.FillLimbs memory)
    (random : ℕ → Randomness t c shape sources) (plaintext : ℕ → ℕ → Residue 32 P)
    (launchesOf : ℕ → Launches P Q)
    (hlaunches : ∀ j, (launchesOf j).Runs (2 ^ L) shape.size) {s e : ℤ}
    (hs : ∀ k < 2 ^ L, |key.s k| ≤ s) (he : ∀ k < 2 ^ L, |key.e k| ≤ e) (r : ℕ → ℕ → ℤ)
    (transformedR : ℕ → ℕ → Residue 32 Q)
    (hr : ∀ j, IsTransform c.ciphertext shape.size (fun k => r j k) (transformedR j))
    {bounds : ℕ → ℤ} (hbounds : ∀ j, ∀ k < shape.size * 2 ^ L, |r j k| ≤ bounds j)
    (scalars : ℕ → ℤ) (launches : Launches P Q) (hruns : launches.Runs (2 ^ L) shape.size)
    (circuit : Circuit)
    (hnoise : circuit.noise (2 ^ L : ℕ)
      (fun _ => (sources.bounds memory s e).fresh (2 ^ L : ℕ) P.toNat) bounds scalars ≤
        ((Q.toNat : ℤ) - 1) / 2) :
    let x (j : ℕ) := (random j).encryption key representation (plaintext j) (launchesOf j)
      (hlaunches j)
    circuit.Decrypts x r scalars launches (circuit.decrypt x transformedR scalars launches) := by
  intro x
  have hbounded (i : ℕ) (hi : i < shape.size) :
      Bounded Q (circuit.phase x r scalars i %ₘ (X ^ 2 ^ L + 1)) :=
    circuit.bounded_phase (fun j => (random j).within_encryption hsources hs he representation
      (plaintext j) (launchesOf j) (hlaunches j)) hbounds hnoise hi
  exact Circuit.decrypts_of_hasPhase htwo hL hP hQ hruns (circuit.hasPhase_evaluate htwo hL hQ hr)
    hbounded

/-- A prime with roots of unity of degree eight, and with room for default noise. -/
def roomy : Modulus := ⟨15, .normal, 18433, by decide, by decide, by decide⟩

theorem squareCompiles_roomy : roomy.SquareCompiles 32 := by
  constructor
  · rw [Core.Compiletime.divisionCarries_iff (l := 3) (by decide) (by decide +kernel)]
    decide +kernel
  · rw [Core.Compiletime.divisionCarries_iff (l := 3) (by decide) (by decide +kernel)]
    decide +kernel

theorem compiles_roomy : Compiles seventeen roomy where
  plaintext := compiles_seventeen.plaintext
  ciphertext := ⟨squareCompiles_roomy.unsigned (by decide +kernel) (by decide +kernel),
    squareCompiles_roomy, by decide +kernel⟩
  toCiphertext := by
    rw [Modulus.ModCompiles, if_pos (by decide)]
    exact squareCompiles_roomy.unsigned (by decide +kernel) (by decide +kernel)
  toPlaintext := by
    rw [Modulus.ModCompiles, if_neg (by decide),
      Core.Compiletime.divisionCarries_iff (l := 3) (by decide) (by decide +kernel)]
    exact ⟨⟨rfl, by decide +kernel⟩, by decide,
      squareCompiles_seventeen.unsigned (by decide +kernel) (by decide +kernel)⟩
  p := squareCompiles_roomy.unsigned (by decide +kernel) (by decide +kernel)

/-- The variances one half and ten, which `randomness` takes by default. -/
def half : Binomial.Variance where
  variance := ⟨1, 2, by decide, by decide, by decide, by decide⟩
  den_eq := by decide
  pos := by decide

theorem ten_lt : 10 < sizeCount := by decide

theorem one_lt : 1 < sizeCount := by decide

def ten : Binomial.Variance where
  variance := ⟨10, 1, ten_lt, one_lt, Nat.one_pos, Nat.coprime_one_right 10⟩
  den_eq := by decide
  pos := by decide

theorem prime_roomy : roomy.toNat.Prime := by
  show Nat.Prime 18433
  norm_num

theorem runs_items : Launches.Runs ⟨items seventeen 4, items roomy 4⟩ (2 ^ 2)
    (Shape.size [.dynamic 2]) :=
  ⟨fun _ => List.Perm.refl _, fun _ => List.Perm.refl _⟩

theorem nonempty_compiled_roomy : Nonempty (Compiled (fun _ => 0) seventeen roomy 2) :=
  nonempty_compiled (by decide) (by decide) prime_roomy (by decide) (by decide) compiles_roomy

theorem signedCompiles_roomy {v : Binomial.Variance} (hv : v.valueType.bitSize < roomy.bitSize) :
    roomy.SignedCompiles 32 v.valueType.bitSize := by
  rw [Modulus.SignedCompiles, if_pos hv]
  exact squareCompiles_roomy.unsigned (by decide +kernel) (by decide +kernel)

theorem noise_roomy :
    shifted.noise (2 ^ 2 : ℕ) (fun _ => ((randomness half ten ten).bounds (fun _ => 0)
      1 0).fresh (2 ^ 2 : ℕ) seventeen.toNat) (fun _ => 1) 0 ≤ ((roomy.toNat : ℤ) - 1) / 2 := by
  decide +kernel

theorem randomness_suffices_roomy :
    ∃ (c : Compiled (fun _ => 0) seventeen roomy 2) (key : KeyPair c)
      (random : ℕ → Randomness chacha20 c [.dynamic 2] (randomness half ten ten))
      (transformedR : ℕ → ℕ → Residue 32 roomy),
      let x (j : ℕ) := (random j).encryption key .numberTheoreticTransform
        (fun k => (j + k : ℕ)) ⟨items _ 4, items _ 4⟩ runs_items
      shifted.Decrypts x (fun _ k => if k % 4 = 1 then 1 else 0) 0
        ⟨items _ 4, items _ 4⟩ (shifted.decrypt x transformedR 0 ⟨items _ 4, items _ 4⟩) := by
  obtain ⟨c⟩ := nonempty_compiled_roomy
  have hsource (v : Binomial.Variance) (hv : v.valueType.bitSize < roomy.bitSize) :
      Nonempty (Sampled chacha20 c (Shape.size [.dynamic 2]) (.centeredBinomial v)) := by
    obtain ⟨x, -⟩ := Sampled.exists_sampled (.centeredBinomial v) c trivial
      (signedCompiles_roomy hv) (items roomy 4) runs_items.2 (fun _ => Uniform.zeroGenerator)
      fun _ => Uniform.ready_zeroGenerator
    exact ⟨x⟩
  obtain ⟨u⟩ := hsource half (by decide)
  obtain ⟨v⟩ := hsource ten (by decide)
  have hlaunch : (items roomy 2).Runs (2 ^ 2) 1 := fun _ => List.Perm.refl _
  let key := trivialKey c _ hlaunch
  let r : ℕ → ℕ → ℤ := fun _ k => if k % 4 = 1 then 1 else 0
  have hsources : (randomness half ten ten).FillLimbs fun _ => 0 := ⟨trivial, trivial, trivial⟩
  refine ⟨c, key, fun _ => ⟨u, v, v⟩, fun j => forward 2 (Shape.size [.dynamic 2])
    c.ciphertext.root (items roomy 4) fun k => r j k, ?_⟩
  exact randomness_suffices le_rfl (by decide) (by decide) prime_roomy hsources
    (fun _ => ⟨u, v, v⟩) _ _ (fun _ => runs_items) (fun k _ => abs_trivialKey_le c _ hlaunch k)
    (fun _ _ => le_rfl) r _ (fun j => ⟨items roomy 4, runs_items.2, fun _ _ => rfl⟩)
    (fun _ k _ => abs_monomial_le k) 0 _ runs_items shifted noise_roomy

end

end Hmpc.Expr.Lhe
