/-
# Hmpc.Ints.PrimitiveRoot -- roots of unity, as they are computed

`is_root_of_unity` raises a value to the degree and to half of it and compares what is stored with
the Montgomery form of one; for a power of two that is to say that the value has the degree as its
order. `root_of_unity` draws numbers of the bits of the modulus until a power of one passes: it is
the search among candidates that are drawn. Both compile when the powers do.
-/
import Hmpc.Ints.Division
import Hmpc.Ints.Numeric
import Hmpc.Random.Uniform
import Mathlib.Tactic.NormNum.Prime

namespace Hmpc.Ints.Mod

open Hmpc.Core Hmpc.Crypto Hmpc.Random Hmpc.Random.Uniform Hmpc.Lib Hmpc.Lib.Limbs MaybeConstant
  SpanType

variable {w : ℕ} {N : Modulus}

/-! ## `integer_traits` -/

/-- `integer_traits<mod>::zero` -/
def traitsZero (w : ℕ) (N : Modulus) : Mod w N :=
  ⟨List.replicate (N.dataType.limbSize w) 0, List.length_replicate⟩

/-- `integer_traits<mod>::one` -/
def traitsOne (memory : ℕ → BitVec w) (N : Modulus) : Option (Mod w N) := do
  let reducedSpan ← tryConstantBitSpanOf w (← N.reducedAuxiliaryModulus w)
  return ⟨Core.Num.bitCopy N.dataType reducedSpan.source
    (Bigint.uninitialized memory (N.limbSize w)), by simp⟩

/-- `integer_traits<mod>::max_unsigned` -/
def maxUnsigned (memory : ℕ → BitVec w) (N : Modulus) : BitArray w :=
  Bigint.convert memory
    (Bigint.abs memory (Bigint.subtract memory (modulusConstant w N) (Bigint.one w))) N.dataType

/-! ## The functions -/

/-- `is_root_of_unity(value, degree)` -/
def isRootOfUnity (memory : ℕ → BitVec w) (value : Mod w N) (degree : ℕ) : Option Bit := do
  -- `has_single_bit`
  guard (degree = 2 ^ (degree.size - 1))
  let half ← pow memory value (degree / 2)
  let full ← pow memory value degree
  let one ← traitsOne memory N
  return notEqualTo half one &&& equalTo full one

/-- `ubigint<bit_width(Degree)>{Degree}`: the degree is converted to the first limb. -/
def degreeInteger (w degree : ℕ) : BitSpan w :=
  ⟨⟨degree.size, .unsigned, .normal⟩,
    BitVec.ofNat w degree :: List.replicate (limbSizeFor w degree.size - 1) 0⟩

/-- `compiletime_number_generator()` -/
def compiletimeNumberGenerator : NumberGenerator :=
  let (block, engine) := (Chacha.compiletime : Chacha chacha20).next
  ⟨engine.state, block, 0⟩

/-- `subtract(x, x, modulus)` -/
def subtractModulus (x : Mod 32 N) : Mod 32 N :=
  ⟨(Num.subtract N.dataType (ownSpan N) (modulusConstant 32 N).span.source (constant 0) x.limbs).1,
    by simp [x.limb_size]⟩

/-- The value that an iteration of `root_of_unity` draws. -/
def drawMod (memory : ℕ → Word) (x : Mod 32 N) (prng : NumberGenerator) :
    Mod 32 N × NumberGenerator :=
  let drawn := NumberGenerator.uniform chacha20 ⟨N.dataType, x.limbs⟩ prng
  let x : Mod 32 N := ⟨drawn.1, (NumberGenerator.length_uniform _ _ _).trans x.limb_size⟩
  if Num.greater x.span (maxUnsigned memory N).span = 1 then (subtractModulus x, drawn.2)
  else (x, drawn.2)

/-- The loop of `root_of_unity`, if it ends after at most `fuel` iterations. -/
def searchRoot (memory : ℕ → Word) (exponent : BitArray 32) (degree : ℕ) :
    ℕ → Mod 32 N → NumberGenerator → Option (Mod 32 N)
  | 0, _, _ => none
  | fuel + 1, x, prng => do
      let (x, prng) := drawMod memory x prng
      if notEqualTo x (traitsZero 32 N) = 1 then
        let g ← powInteger memory x exponent
        if (← isRootOfUnity memory g degree) = 1 then return g
        else searchRoot memory exponent degree fuel x prng
      else searchRoot memory exponent degree fuel x prng

/-- `root_of_unity<Modulus, Degree>()` -/
def rootOfUnity (memory : ℕ → Word) (N : Modulus) (degree fuel : ℕ) : Option (Mod 32 N) := do
  let qr ← Bigint.divide memory (maxUnsigned memory N).toBitSpan (degreeInteger 32 degree)
  guard (Num.equalTo qr.remainder.span (Bigint.zero 32).span = 1)
  if h : qr.quotient.limbs.length = qr.quotient.type.limbSize 32 then
    searchRoot memory ⟨qr.quotient, h⟩ degree fuel (uninitialized memory N)
      compiletimeNumberGenerator
  else none

/-! ## The test -/

section

variable [NeZero w] (memory : ℕ → BitVec w)

theorem traitsOne_definedWhen :
    DefinedWhen (¬ Compiletime.DivisionCarries w (N.auxiliaryModulus w) N.toNat)
      (traitsOne memory N) (· = (1 : Residue w N).val) := by
  have hone : ((1 : ZMod N.toNat) * N.auxiliaryModulus w).val =
      N.auxiliaryModulus w % N.toNat := by
    rw [one_mul, ZMod.val_natCast]
  have hpos := N.mod_pos (N.coprime_auxiliaryModulus (w := w))
  refine (N.reducedAuxiliaryModulus_definedWhen.bind (e := True) ?_).congr (and_iff_left trivial)
  rintro _ rfl
  refine ((tryConstantBitSpanOf_definedWhen _).congr (iff_true_intro hpos.ne')).map
    fun reducedSpan hreduced => ?_
  have hcopy := Core.Num.bitCopy_eq (t := N.dataType) (Bigint.length_uninitialized memory _)
    (hreduced.denotes.reads _ _)
  apply Mod.ext
  show _ = N.dataType.image w ((1 : ZMod N.toNat) * N.auxiliaryModulus w).val
  rw [hone]
  exact hcopy

/-- The test of the values of the ring. -/
theorem isRootOfUnity_definedWhen (value : Residue w N) (k : ℕ) :
    DefinedWhen (N.UnsignedCompiles w 1) (isRootOfUnity memory value.val (2 ^ k))
      (· = Residue.isRootOfUnity value (2 ^ k)) := by
  have hbit : 2 ^ k = 2 ^ ((2 ^ k).size - 1) := by rw [Nat.size_pow, Nat.add_sub_cancel]
  have htest := (DefinedWhen.of_guard (2 ^ k = 2 ^ ((2 ^ k).size - 1))).bind fun _ _ =>
    (pow_definedWhen memory value (2 ^ k / 2)).bind fun half hhalf =>
    (pow_definedWhen memory value (2 ^ k)).bind fun full hfull =>
    (traitsOne_definedWhen memory).map (Q := (· = Residue.isRootOfUnity value (2 ^ k)))
      (f := fun one => notEqualTo half one &&& equalTo full one) fun one hone => by
        rw [hhalf, hfull, hone, Residue.isRootOfUnity, Ints.pow_eq, Ints.pow_eq]
  refine htest.congr ⟨fun h => h.2.1, fun h => ⟨hbit, h, h, h.square.1⟩⟩

theorem maxUnsigned_eq : maxUnsigned memory N = N.dataType.array w (N.toNat - 1) := by
  obtain ⟨hdifference, hvalue⟩ := modulus_sub_one memory N
  have hpos : (1 : ℤ) < N.toNat := by exact_mod_cast N.one_lt
  obtain ⟨habs, habsValue⟩ := Bigint.normalized_abs memory hdifference rfl (by omega)
  rw [maxUnsigned, Bigint.convert_eq_array memory habs, habsValue, hvalue]

theorem traitsZero_eq : traitsZero w N = (0 : Residue w N).val := by
  have hvalue : value (0 : Residue w N).val.limbs = value (traitsZero w N).limbs := by
    have hzero : ((0 : ZMod N.toNat) * N.auxiliaryModulus w).val = 0 := by
      rw [zero_mul, ZMod.val_zero]
    show value (ofResidue w N (0 * N.auxiliaryModulus w)).limbs = _
    rw [value_ofResidue, hzero]
    exact (value_replicate_zero _).symm
  apply Mod.ext
  exact (value_injective ((0 : Residue w N).val.limb_size.trans (traitsZero w N).limb_size.symm)
    hvalue).symm

end

/-! ## The search -/

section

variable (memory : ℕ → Word)

/-- The highest bit of the largest residue is set. -/
theorem two_pow_bitSize_le : 2 ^ N.bitSize ≤ 2 * (N.toNat - 1) := by
  have hpos : 0 < N.bitSize := Nat.size_pos.mpr (Nat.sub_pos_of_lt N.one_lt)
  have hlow : 2 ^ (N.bitSize - 1) ≤ N.toNat - 1 := Nat.lt_size.mp (Nat.sub_lt hpos one_pos)
  calc 2 ^ N.bitSize = 2 * 2 ^ (N.bitSize - 1) := by rw [← pow_succ', Nat.sub_add_cancel hpos]
    _ ≤ 2 * (N.toNat - 1) := Nat.mul_le_mul_left 2 hlow

/-- A number of the bits of the modulus, compared with the largest residue. -/
theorem greater_maxUnsigned {v : ℕ} (hv : v < 2 ^ N.bitSize) :
    Num.greater (N.dataType.array 32 v).span (maxUnsigned memory N).span = 1 ↔ N.toNat ≤ v := by
  have hmax : (N.toNat : ℤ) - 1 < 2 ^ N.bitSize := by
    have hlt : (N.toNat : ℤ) < 2 ^ N.bitSize := by exact_mod_cast N.lt_two_pow
    omega
  have hpos : (1 : ℤ) < N.toNat := by exact_mod_cast N.one_lt
  obtain ⟨hx, hxValue⟩ := Bigint.array_normalized (w := 32) (t := N.dataType) (z := v) nofun
    ((inRange_unsigned _ rfl).mpr ⟨Int.natCast_nonneg v, by exact_mod_cast hv⟩)
  obtain ⟨hm, hmValue⟩ := Bigint.array_normalized (w := 32) (t := N.dataType)
    (z := (N.toNat : ℤ) - 1) nofun ((inRange_unsigned _ rfl).mpr ⟨by omega, hmax⟩)
  rw [maxUnsigned_eq, (Num.order_storedInt hx.readable hm.readable).2.2.1, bitOf_eq_one_iff,
    BitArray.storedInt_eq_toInt _ hx.signed_pos hx.isNormal,
    BitArray.storedInt_eq_toInt _ hm.signed_pos hm.isNormal, hxValue, hmValue]
  omega

/-- The modulus is taken off a number that is less than twice the modulus. -/
theorem reduced_subtractModulus {x : Mod 32 N} (hle : N.toNat ≤ value x.limbs)
    (hlt : value x.limbs < 2 ^ N.bitSize) : (subtractModulus x).Reduced := by
  have hbits := two_pow_bitSize_le (N := N)
  have hmodulus := (modulusConstant_normalized (w := 32) N)
  have hreads := hmodulus.1.denotes
  rw [hmodulus.2] at hreads
  have hlimbs := (Core.Num.subtract_eq (t := N.dataType) x.limb_size
    (ownSpan_reads x.limbs x.limb_size) (hreads.reads _ _) (constant 0)).1
  have hzero : ((constant (0 : Bit)).value.toNat : ℤ) = 0 := rfl
  rw [hzero, sub_zero] at hlimbs
  have hrange : (value x.limbs : ℤ) - N.toNat < N.toNat := by omega
  have hvalue := N.dataType.value_image_of_inRange (w := 32) rfl
    (inRange_of_lt (N := N) (z := (value x.limbs : ℤ) - N.toNat) (by omega) hrange)
  rw [← hlimbs] at hvalue
  show value (Num.subtract N.dataType (ownSpan N) (modulusConstant 32 N).span.source (constant 0)
    x.limbs).1 < N.toNat
  omega

/-- What is drawn has the bits of the modulus. -/
theorem uniform_lt (hnormal : N.normalType = .normal) {prng : NumberGenerator} (h : prng.Ready)
    {limbs : List Word} (hlength : limbs.length = N.limbSize 32) :
    value (NumberGenerator.uniform chacha20 ⟨N.dataType, limbs⟩ prng).1 < 2 ^ N.bitSize := by
  have hkept (z : ℤ) : N.dataType.kept 32 z = (z % 2 ^ N.bitSize).toNat := by
    unfold kept
    rw [show N.dataType.normalType = .normal from hnormal]
    rfl
  rw [uniform_eq_image h hnormal hlength, Checked.value_image rfl, hkept]
  have hbase : (0 : ℤ) < 2 ^ N.bitSize := by positivity
  zify
  rw [Int.toNat_of_nonneg (Int.emod_nonneg _ hbase.ne')]
  exact Int.emod_lt_of_pos _ hbase

/-- A number of the bits of the modulus is less than twice the modulus. -/
theorem drawMod_reduced (hnormal : N.normalType = .normal) {prng : NumberGenerator}
    (h : prng.Ready) (x : Mod 32 N) :
    (drawMod memory x prng).1.Reduced ∧ (drawMod memory x prng).2.Ready := by
  have hready : (NumberGenerator.uniform chacha20 ⟨N.dataType, x.limbs⟩ prng).2.Ready := by
    rw [uniform_eq_image h hnormal x.limb_size]
    exact h.skip _
  let y : Mod 32 N := ⟨(NumberGenerator.uniform chacha20 ⟨N.dataType, x.limbs⟩ prng).1,
    (NumberGenerator.length_uniform _ _ _).trans x.limb_size⟩
  have hlt : value y.limbs < 2 ^ N.bitSize := uniform_lt hnormal h x.limb_size
  have hlimbs := N.dataType.eq_image_of_lt rfl y.limb_size hlt
  have hspan : y.span = (N.dataType.array 32 (value y.limbs)).span := by
    show (BitSpan.mk N.dataType y.limbs).span = (BitSpan.mk N.dataType (image _ 32 _)).span
    rw [← hlimbs]
  have hgreater := greater_maxUnsigned memory hlt
  rw [← hspan] at hgreater
  have hdraw : drawMod memory x prng =
      if Num.greater y.span (maxUnsigned memory N).span = 1 then
        (subtractModulus y, (NumberGenerator.uniform chacha20 ⟨N.dataType, x.limbs⟩ prng).2)
      else (y, (NumberGenerator.uniform chacha20 ⟨N.dataType, x.limbs⟩ prng).2) := rfl
  rw [hdraw]
  split_ifs with hcompare
  · exact ⟨reduced_subtractModulus (hgreater.mp hcompare) hlt, hready⟩
  · exact ⟨Nat.lt_of_not_le (mt hgreater.mpr hcompare), hready⟩

theorem searchRoot_none (h : ¬ N.UnsignedCompiles 32 1) (exponent : BitArray 32)
    (degree fuel : ℕ) (x : Mod 32 N) (prng : NumberGenerator) :
    searchRoot memory exponent degree fuel x prng = none := by
  induction fuel generalizing x prng with
  | zero => rfl
  | succ fuel ih =>
      have hpow : powInteger memory (drawMod memory x prng).1 exponent = none := by
        rw [powInteger, (ofInteger_one memory).eq_none h]
        exact Option.bind_fun_none _
      unfold searchRoot
      dsimp only
      rw [hpow, ih]
      split_ifs <;> rfl

/-- The loop is the search among the values that it draws. -/
theorem searchRoot_eq (hnormal : N.normalType = .normal) (h : N.UnsignedCompiles 32 1)
    {exponent : BitArray 32} (hu : exponent.type.signedness = .unsigned)
    (hread : exponent.Readable) (hbits : exponent.type.bitSize = N.bitSize) {k : ℕ}
    (hvalue : exponent.toInt.toNat = (N.toNat - 1) / 2 ^ k) (fuel : ℕ) (x : Mod 32 N)
    {prng : NumberGenerator} (hready : prng.Ready) :
    ∃ candidates : List (Residue 32 N), candidates.length = fuel ∧
      searchRoot memory exponent (2 ^ k) fuel x prng =
        (Residue.rootOfUnity (2 ^ k) candidates).map Residue.val := by
  have hpos : 0 < N.bitSize := Nat.size_pos.mpr (Nat.sub_pos_of_lt N.one_lt)
  have hlt : (N.toNat - 1) / 2 ^ k < 2 ^ N.bitSize :=
    (Nat.div_le_self _ _).trans_lt (Nat.lt_size_self _)
  induction fuel generalizing x prng with
  | zero => exact ⟨[], rfl, rfl⟩
  | succ fuel ih =>
      obtain ⟨hreduced, hnext⟩ := drawMod_reduced memory hnormal hready x
      obtain ⟨rest, hlength, hrest⟩ := ih (drawMod memory x prng).1 hnext
      let c : Residue 32 N := ⟨(drawMod memory x prng).1, hreduced⟩
      have hpow : powInteger memory (drawMod memory x prng).1 exponent =
          some (Ints.powInteger N.bitSize c ((N.toNat - 1) / 2 ^ k)).val := by
        rw [powInteger_eq hlt, ← hvalue]
        exact (powInteger_definedWhen memory c hu hread).eq_some ⟨hbits ▸ hpos, h⟩
      have htest := (isRootOfUnity_definedWhen memory
        (Ints.powInteger N.bitSize c ((N.toNat - 1) / 2 ^ k)) k).eq_some h
      refine ⟨c :: rest, congrArg Nat.succ hlength, ?_⟩
      unfold searchRoot Residue.rootOfUnity
      dsimp only
      rw [hpow, hrest, traitsZero_eq, List.findSome?_cons]
      by_cases hzero : notEqualTo c.val (0 : Residue 32 N).val = 1
      · rw [if_pos hzero, if_pos hzero, Option.bind_eq_bind, Option.bind_some, htest,
          Option.bind_eq_bind, Option.bind_some]
        by_cases hroot : Residue.isRootOfUnity
            (Ints.powInteger N.bitSize c ((N.toNat - 1) / 2 ^ k)) (2 ^ k) = 1
        · rw [if_pos hroot, if_pos hroot]
          rfl
        · rw [if_neg hroot, if_neg hroot]
          rfl
      · rw [if_neg hzero, if_neg hzero]
        rfl

/-- The degree, as far as it fits a limb. -/
theorem holds_degreeInteger {degree : ℕ} (hpos : 0 < degree) :
    Checked.Holds (degreeInteger 32 degree) (degree % 2 ^ 32) where
  unsigned := rfl
  length_eq := by
    have hsize : 0 < degree.size := Nat.size_pos.mpr hpos
    show (List.replicate (limbSizeFor 32 degree.size - 1) (0 : Word)).length + 1 =
      limbSizeFor 32 degree.size
    rw [List.length_replicate, Nat.sub_add_cancel (Bigint.limbSizeFor_pos hsize)]
  value_eq := by
    show value (BitVec.ofNat 32 degree :: List.replicate _ 0#32) = _
    rw [value_cons, value_replicate_zero, BitVec.toNat_ofNat, Nat.mul_zero, Nat.add_zero]
  lt := (Nat.mod_le _ _).trans_lt (Nat.lt_size_self degree)

theorem holds_maxUnsigned : Checked.Holds (maxUnsigned memory N).toBitSpan (N.toNat - 1) := by
  have hcast : (N.toNat : ℤ) - 1 = ((N.toNat - 1 : ℕ) : ℤ) := by
    rw [Nat.cast_sub N.one_lt.le, Nat.cast_one]
  rw [maxUnsigned_eq, hcast]
  exact Checked.holds_image rfl ((Nat.sub_le _ _).trans_lt N.lt_two_pow)

/-- What the loop returns was found among the values that it has drawn. -/
theorem exists_candidates_of_search (hnormal : N.normalType = .normal) {e : BitArray 32}
    {k : ℕ} (hexponent : Checked.Holds e.toBitSpan ((N.toNat - 1) / 2 ^ k))
    (hbits : e.type.bitSize = N.bitSize) {fuel : ℕ} {x g : Mod 32 N}
    {prng : NumberGenerator} (hready : prng.Ready)
    (h : searchRoot memory e (2 ^ k) fuel x prng = some g) :
    ∃ (candidates : List (Residue 32 N)) (r : Residue 32 N), candidates.length = fuel ∧
      r.val = g ∧ Residue.rootOfUnity (2 ^ k) candidates = some r := by
  have hcompiles : N.UnsignedCompiles 32 1 := by
    by_contra hcon
    rw [searchRoot_none memory hcon] at h
    cases h
  have hread := (Checked.sound_iff_readable hexponent.unsigned).mp hexponent.sound
  have hvalue : e.toInt.toNat = (N.toNat - 1) / 2 ^ k := by
    have hlt := hexponent.lt
    unfold BitArray.toInt wrap
    rw [hexponent.unsigned, hexponent.value_eq]
    dsimp only
    rw [Int.emod_eq_of_lt (Int.natCast_nonneg _) (by exact_mod_cast hlt), Int.toNat_natCast]
  obtain ⟨candidates, hlength, hsearch⟩ := searchRoot_eq memory hnormal hcompiles
    hexponent.unsigned hread hbits hvalue fuel x hready
  rw [hsearch] at h
  obtain ⟨r, hr, hg⟩ := Option.map_eq_some_iff.mp h
  exact ⟨candidates, r, hlength, hg, hr⟩

/-- What `root_of_unity` returns was found among the values that it has drawn. -/
theorem exists_candidates {k fuel : ℕ} {g : Mod 32 N}
    (h : rootOfUnity memory N (2 ^ k) fuel = some g) :
    ∃ (candidates : List (Residue 32 N)) (r : Residue 32 N), candidates.length = fuel ∧
      r.val = g ∧ Residue.rootOfUnity (2 ^ k) candidates = some r := by
  have hready : compiletimeNumberGenerator.Ready :=
    ⟨NumberGenerator.length_block chacha20 _, by decide⟩
  have hmax := holds_maxUnsigned (N := N) memory
  have hdegree := holds_degreeInteger (Nat.two_pow_pos k)
  unfold rootOfUnity at h
  obtain ⟨⟨q, r⟩, hqr, h⟩ := Option.bind_eq_some_iff.mp h
  obtain ⟨-, -, h⟩ := Option.bind_eq_some_iff.mp h
  have hfits : 2 ^ k % 2 ^ 32 ≠ 0 := by
    intro hzero
    rw [Bigint.divide_zero memory hmax (hzero ▸ hdegree)] at hqr
    cases hqr
  have hk : 2 ^ k % 2 ^ 32 = 2 ^ k := by
    apply Nat.mod_eq_of_lt
    refine Nat.pow_lt_pow_right one_lt_two (Nat.lt_of_not_le fun hle => hfits ?_)
    exact Nat.mod_eq_zero_of_dvd (pow_dvd_pow 2 hle)
  -- `divide` takes integers of one normalization
  have hdivide := Bigint.divide_definedWhen memory hmax hdegree (Nat.pos_of_ne_zero hfits)
  have hnormal : N.normalType = .normal := (hdivide.domain hqr).1
  obtain ⟨⟨htype, hlength, hvalue⟩, -⟩ := hdivide.post hqr
  rw [hk] at hvalue
  dsimp only at h htype hlength hvalue
  split_ifs at h with hlimbs
  exact exists_candidates_of_search memory hnormal
    ⟨by rw [htype]; rfl, hlimbs, hvalue, by rw [htype]; exact Bigint.quotient_lt hmax⟩
    (by rw [htype]; rfl) hready h

end

/-! ## Orders -/

/-- The test tells the values of which the degree is the order. -/
def CharacterizesRoots (memory : ℕ → BitVec w) (value : Mod w N) (degree : ℕ) : Prop :=
  ∃ bit, isRootOfUnity memory value degree = some bit ∧
    (bit = 1 ↔ orderOf value.toZMod = degree)

/-- Whatever the search returns has the degree as its order, and is a root of minus one. -/
def FindsRoots (N : Modulus) (degree : ℕ) : Prop :=
  ∀ (memory : ℕ → Word) (fuel : ℕ) (g : Mod 32 N), rootOfUnity memory N degree fuel = some g →
    orderOf g.toZMod = degree ∧ g.toZMod ^ (degree / 2) = -1

theorem characterizesRoots_iff [NeZero w] (memory : ℕ → BitVec w) {value : Mod w N}
    (hvalue : value.Reduced) (k : ℕ) :
    CharacterizesRoots memory value (2 ^ (k + 1)) ↔ N.UnsignedCompiles w 1 := by
  refine ((isRootOfUnity_definedWhen memory ⟨value, hvalue⟩ (k + 1)).imp ?_).exists_iff
  rintro _ rfl
  exact Residue.isRootOfUnity_iff_orderOf ⟨value, hvalue⟩ k

theorem findsRoots (hprime : N.toNat.Prime) (k : ℕ) : FindsRoots N (2 ^ (k + 1)) := by
  intro memory fuel g hg
  obtain ⟨candidates, r, -, rfl, hr⟩ := exists_candidates memory hg
  have htest := Residue.isRootOfUnity_of_rootOfUnity hr
  refine ⟨(Residue.isRootOfUnity_iff_orderOf r k).mp htest, ?_⟩
  rw [pow_succ'] at htest
  have hneg := congrArg (Residue.ringEquiv 32 N) (Residue.pow_eq_neg_one hprime htest)
  rw [map_pow, map_neg, map_one] at hneg
  rw [pow_succ, Nat.mul_div_cancel _ two_pos]
  exact hneg

/-- **Roots of unity.** The test is about the order, exactly when the Montgomery form of one
compiles, and the roots found modulo a prime have the degree as their order. -/
theorem rootsOfUnity_iff (memory : ℕ → Word) {value : Mod 32 N} (hvalue : value.Reduced) (k : ℕ) :
    (CharacterizesRoots memory value (2 ^ (k + 1)) ↔ N.UnsignedCompiles 32 1) ∧
      (N.toNat.Prime → 2 ^ (k + 1) ∣ N.toNat - 1 → FindsRoots N (2 ^ (k + 1))) :=
  ⟨characterizesRoots_iff memory hvalue k, fun hprime _ => findsRoots hprime k⟩

/-- Modulo 40961 there are roots of degree up to `2 ^ 13`. -/
theorem rootsOfUnity_prime : CharacterizesRoots (fun _ => 0) largest (2 ^ 13) ∧
    FindsRoots prime (2 ^ 13) := by
  obtain ⟨hcharacterizes, hfinds⟩ := rootsOfUnity_iff (fun _ => 0) reduced_largest 12
  refine ⟨hcharacterizes.mpr ?_, hfinds ?_ ?_⟩
  · exact squareCompiles_prime.unsigned (by decide +kernel) (by decide +kernel)
  · show Nat.Prime 40961
    norm_num
  · show 2 ^ 13 ∣ 40961 - 1
    norm_num

/-- Modulo `2 ^ 64 - 2 ^ 48 + 1` the test does not compile. -/
theorem not_characterizesRoots_carrying : oneModCarrying.Reduced ∧
    ¬ CharacterizesRoots (fun _ => 0) oneModCarrying 2 := by
  have hreduced : oneModCarrying.Reduced := by
    unfold Reduced
    decide +kernel
  exact ⟨hreduced, fun h => not_unsignedCompiles_carrying (by decide)
    ((characterizesRoots_iff _ hreduced 0).mp h)⟩

end Hmpc.Ints.Mod
