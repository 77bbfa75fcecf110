/-
# Hmpc.Ints.Mod -- integers modulo an odd number, in Montgomery form

A `mod<Modulus>` stores the limbs of `x * R` modulo the modulus `N`, where `R` is the power of the
base above the limbs. The operators add, subtract and multiply what is stored, and bring it below
the modulus again; the conversion to an unsigned integer divides by `R`. So what is stored is again
below the modulus, and the conversion is a homomorphism onto the integers modulo `N`. There is a
`mod<Modulus>` for the limbs of `hmpc::default_limb` only, which have 32 bits; that the model has
one for limbs of `w` bits is more than the code has.
-/
import Hmpc.Core.GreatestCommonDivisor
import Hmpc.Core.Modulo
import Hmpc.Ints.Bigint
import Mathlib.Data.Nat.Prime.Basic
import Mathlib.Data.ZMod.Units

namespace Hmpc.Ints

open Hmpc.Core Hmpc.Lib.Limbs Hmpc.Lib.Digits MaybeConstant SpanType

/-! ## The modulus and its constants -/

/-- The template argument `Modulus`: the number that an unsigned `bigint` of `bits` bits holds. -/
structure Modulus where
  bits : ℕ
  normalType : Normalization
  toNat : ℕ
  lt : toNat < 2 ^ bits
  odd : toNat % 2 = 1
  one_lt : 1 < toNat

/-- `constant_bit_span_of`: the limbs of a constant, up to its highest bit. Zero has no limbs, from
which `constant_bit_span{}` could deduce their type, so that there is no span of it. -/
def constantBitSpanOf (w x : ℕ) [NeZero x] : Span w where
  bitSize := x.size
  signedness := .unsigned
  limbSize := limbSizeFor w x.size
  sign := constant 0
  read i := constant (digit w x i)
  readNormal i := constant (digit w x i)

/-- `constant_bit_span_of`, for a constant that may be zero -/
def tryConstantBitSpanOf (w x : ℕ) : Option (Span w) :=
  if h : x = 0 then none else
    have : NeZero x := ⟨h⟩
    some (constantBitSpanOf w x)

theorem tryConstantBitSpanOf_eq (w x : ℕ) [NeZero x] :
    tryConstantBitSpanOf w x = some (constantBitSpanOf w x) := dif_neg (NeZero.ne x)

theorem tryConstantBitSpanOf_zero (w : ℕ) : tryConstantBitSpanOf w 0 = none := dif_pos rfl

namespace Modulus

variable (w : ℕ) (N : Modulus)

instance : NeZero N.toNat := ⟨by have := N.one_lt; omega⟩

instance : NeZero (N.toNat / 2) := ⟨by have := N.one_lt; omega⟩

instance : Fact (1 < N.toNat) := ⟨N.one_lt⟩

/-- `bit_size`, which is `bit_width(modulus - one)`. -/
def bitSize : ℕ := (N.toNat - 1).size

/-- The type of `data`, and of the limbs of `unsigned_type`. -/
def dataType : SpanType := ⟨N.bitSize, .unsigned, N.normalType⟩

abbrev limbSize : ℕ := N.dataType.limbSize w

/-- `modulus_span` -/
def modulusSpan : Span w := constantBitSpanOf w N.toNat

/-- `inverse_modulus`, from the inverse of the modulus modulo the base. There always is one;
`invert_modulo` compares with a one of `hmpc::default_limb`, hence limbs of 32 bits. -/
def inverseModulus : BitVec w :=
  -BitVec.ofNat w
    ((Compiletime.invertModulo w N.normalType N.bits (w + 1) N.toNat (2 ^ w)).getD 0)

end Modulus

/-- `mod<Modulus>` -/
@[ext] structure Mod (w : ℕ) (N : Modulus) where
  limbs : List (BitVec w)
  limb_size : limbs.length = N.limbSize w

namespace Mod

variable {w : ℕ} {N : Modulus}

def span (a : Mod w N) : Span w := (BitSpan.mk N.dataType a.limbs).span

/-- `span()` of a result, while it is written. -/
def ownSpan (N : Modulus) : Source w := fun l => (BitSpan.mk N.dataType l).span

/-! ## The operators -/

/-- The body of an operator writes its result, which may be one of its operands. -/
structure Body (w : ℕ) where
  run : Source w → Source w → List (BitVec w) → List (BitVec w)
  length_run : ∀ left right result, (run left right result).length = result.length

section Operators

variable (memory : ℕ → BitVec w) (N : Modulus)

/-- `HMPC_OPERATOR_BODY_ADD`: the sum may need a limb more than the modulus. -/
def addBody : Body w where
  run left right result :=
    let sumType : SpanType := ⟨N.bitSize + 1, .unsigned, .unnormal⟩
    let sum := (Core.Num.add sumType (left result).source (right result).source (constant 0)
      (Bigint.uninitialized memory (sumType.limbSize w))).1
    let sumSpan := (BitSpan.mk sumType sum).span
    if sumType.limbSize w = N.limbSize w then
      let s := Num.subtract N.dataType sumSpan.source (N.modulusSpan w).source (constant 0) result
      Num.select N.dataType (ownSpan N) sumSpan.source s.2 s.1
    else
      let s := Num.subtract sumType sumSpan.source (N.modulusSpan w).source (constant 0)
        (Bigint.uninitialized memory (sumType.limbSize w))
      let differenceSpan := (BitSpan.mk sumType s.1).span
      Num.select N.dataType differenceSpan.source sumSpan.source s.2 result
  length_run left right result := by
    dsimp only
    split_ifs <;> simp

/-- `HMPC_OPERATOR_BODY_SUBTRACT` -/
def subtractBody : Body w where
  run left right result :=
    let differenceType : SpanType := ⟨N.bitSize, .unsigned, .unnormal⟩
    let s := Num.subtract differenceType (left result).source (right result).source (constant 0)
      (Bigint.uninitialized memory (differenceType.limbSize w))
    let differenceSpan := (BitSpan.mk differenceType s.1).span
    (Core.Num.add N.dataType differenceSpan.source
      ((N.modulusSpan w).mask (runtime s.2.value)).source (constant 0) result).1
  length_run left right result := by simp

/-- `HMPC_OPERATOR_BODY_MULTIPLY` -/
def multiplyBody : Body w where
  run left right result :=
    let productType : SpanType := ⟨N.bitSize + N.bitSize, .unsigned, .unnormal⟩
    let product := Num.multiply productType (left result) (right result)
      (Bigint.uninitialized memory (productType.limbSize w))
      (Bigint.uninitialized memory (productType.limbSize w))
    let productSpan := (BitSpan.mk productType product).span
    Num.montgomeryReduce N.dataType productSpan (N.modulusSpan w) (N.limbSize w)
      (N.inverseModulus w) result
  length_run left right result := by simp

variable {N}

/-- `HMPC_OPERATOR` -/
def operator (body : Body w) (a b : Mod w N) : Mod w N :=
  ⟨body.run a.span.source b.span.source (Bigint.uninitialized memory (N.limbSize w)), by
    rw [body.length_run, Bigint.length_uninitialized]⟩

/-- `HMPC_ASSIGNMENT_OPERATOR` -/
def assign (body : Body w) (a b : Mod w N) : Mod w N :=
  ⟨body.run (ownSpan N) b.span.source a.limbs, by rw [body.length_run, a.limb_size]⟩

/-- `HMPC_ASSIGNMENT_OPERATOR`, when `other` is the object itself. -/
def assignSelf (body : Body w) (a : Mod w N) : Mod w N :=
  ⟨body.run (ownSpan N) (ownSpan N) a.limbs, by rw [body.length_run, a.limb_size]⟩

/-- `a + b` -/
def add (a b : Mod w N) : Mod w N := operator memory (addBody memory N) a b

/-- `a - b` -/
def subtract (a b : Mod w N) : Mod w N := operator memory (subtractBody memory N) a b

/-- `a * b` -/
def multiply (a b : Mod w N) : Mod w N := operator memory (multiplyBody memory N) a b

/-- `a += b` -/
def addAssign (a b : Mod w N) : Mod w N := assign (addBody memory N) a b

/-- `a -= b` -/
def subtractAssign (a b : Mod w N) : Mod w N := assign (subtractBody memory N) a b

/-- `a *= b` -/
def multiplyAssign (a b : Mod w N) : Mod w N := assign (multiplyBody memory N) a b

/-- `-a` -/
def negate (a : Mod w N) : Mod w N :=
  let mask := runtime (Num.notEqualTo a.span (nullspan w))
  ⟨(Num.subtract N.dataType ((N.modulusSpan w).mask mask).source a.span.source (constant 0)
    (Bigint.uninitialized memory (N.limbSize w))).1, by simp⟩

/-- `operator unsigned_type` -/
def toUnsigned (a : Mod w N) : BitArray w :=
  ⟨⟨N.dataType, Num.montgomeryReduce N.dataType a.span (N.modulusSpan w) (N.limbSize w)
    (N.inverseModulus w) (Bigint.uninitialized memory (N.limbSize w))⟩, by simp⟩

/-- `a == b` -/
def equalTo (a b : Mod w N) : Bit := Num.equalTo a.span b.span

/-- `a != b` -/
def notEqualTo (a b : Mod w N) : Bit := Num.notEqualTo a.span b.span

end Operators

end Mod

/-! ## What the constants are -/

section

variable {w : ℕ} [NeZero w] (N : Modulus)

omit [NeZero w] in
theorem constantBitSpanOf_unsigned (x : ℕ) [NeZero x] : Num.Unsigned (constantBitSpanOf w x) x where
  denotes _ := rfl
  limbs := rfl
  nonneg := Int.natCast_nonneg x
  lt := by exact_mod_cast Nat.lt_size_self x

theorem constantBitSpanOf_represents (x : ℕ) [NeZero x] : (constantBitSpanOf w x).Represents x where
  digits _ := rfl
  above i hi := by
    have hlt : (x : ℤ) < (2 ^ w) ^ i := by
      have hunsigned := constantBitSpanOf_unsigned (w := w) x
      exact hunsigned.lt_pow.trans_le (pow_le_pow_right₀ (one_le_pow₀ one_le_two) hi)
    show (x : ℤ) / (2 ^ w) ^ i = -((0 : Bit).toNat : ℤ)
    rw [ediv_of_lt (Int.natCast_nonneg x) hlt le_rfl]
    rfl
  unsigned _ := rfl

namespace Modulus

omit [NeZero w] in
/-- An odd modulus has the bits of its predecessor. -/
theorem size_toNat : N.toNat.size = N.bitSize := by
  have hodd := N.odd
  have hlt := N.one_lt
  apply Nat.le_antisymm
  · rw [Nat.size_le]
    have hpred : N.toNat - 1 < 2 ^ N.bitSize := Nat.lt_size_self _
    have heven : N.toNat ≠ 2 ^ N.bitSize := by
      have hbits : N.bitSize ≠ 0 := (Nat.size_pos.mpr (by omega : 0 < N.toNat - 1)).ne'
      obtain ⟨k, hk⟩ := Nat.exists_eq_succ_of_ne_zero hbits
      rw [hk, Nat.succ_eq_add_one, pow_succ]
      omega
    omega
  · exact Nat.size_le_size (Nat.sub_le _ _)

theorem lt_two_pow : N.toNat < 2 ^ N.bitSize := by
  rw [← N.size_toNat]
  exact Nat.lt_size_self _

/-- `auxiliary_modulus` -/
def auxiliaryModulus (w : ℕ) (N : Modulus) : ℕ := (2 ^ w) ^ N.limbSize w

theorem bitSize_le : N.bitSize ≤ w * N.limbSize w := (limbSizeFor_le_iff _ _).mp le_rfl

theorem lt_auxiliaryModulus : N.toNat < N.auxiliaryModulus w := by
  unfold auxiliaryModulus
  rw [← pow_mul]
  exact N.lt_two_pow.trans_le (Nat.pow_le_pow_right two_pos N.bitSize_le)

theorem coprime_two_pow (n : ℕ) : Nat.Coprime (2 ^ n) N.toNat := by
  apply Nat.Coprime.pow_left
  exact Nat.coprime_two_left.mpr (Nat.odd_iff.mpr N.odd)

/-- `inverse_modulus` is what the reduction asks for. -/
theorem inverseModulus_dvd : (2 : ℤ) ^ w ∣ N.toNat * (N.inverseModulus w).toNat + 1 := by
  have hpos : 0 < N.toNat := Nat.pos_of_ne_zero (NeZero.ne _)
  obtain ⟨inverse, -, hinverse, hdvd⟩ := @Compiletime.invertModulo_eq w _
    N.normalType _ _ _ _ hpos (Nat.two_pow_pos w) N.lt
    (Nat.pow_lt_pow_right one_lt_two (Nat.lt_succ_self w)) (N.coprime_two_pow w).symm
  have hnegative : ((-BitVec.ofNat w inverse).toNat : ℤ) ≡ -inverse [ZMOD 2 ^ w] := by
    have hlt := (BitVec.ofNat w inverse).isLt
    rw [BitVec.toNat_neg, Int.natCast_mod, Nat.cast_sub hlt.le, BitVec.toNat_ofNat,
      Int.natCast_mod]
    push_cast
    have hmod : (inverse : ℤ) % 2 ^ w ≡ inverse [ZMOD 2 ^ w] := Int.mod_modEq _ _
    calc (2 ^ w - (inverse : ℤ) % 2 ^ w) % 2 ^ w
        ≡ 2 ^ w - (inverse : ℤ) % 2 ^ w [ZMOD 2 ^ w] := Int.mod_modEq _ _
      _ ≡ 0 - inverse [ZMOD 2 ^ w] := (Int.modEq_zero_iff_dvd.mpr dvd_rfl).sub hmod
      _ = -inverse := zero_sub _
  rw [inverseModulus, hinverse, Option.getD_some]
  apply Int.modEq_zero_iff_dvd.mp
  calc (N.toNat * (-BitVec.ofNat w inverse).toNat + 1 : ℤ)
      ≡ N.toNat * -inverse + 1 [ZMOD 2 ^ w] := (hnegative.mul_left _).add_right _
    _ = -(inverse * N.toNat - 1) := by ring
    _ ≡ 0 [ZMOD 2 ^ w] := by
      apply Int.modEq_zero_iff_dvd.mpr
      rw [dvd_neg]
      exact_mod_cast hdvd

end Modulus

/-! ## Values -/

namespace Mod

variable {N}

/-- The limbs are below the modulus. -/
def Reduced (a : Mod w N) : Prop := value a.limbs < N.toNat

/-- What is stored, modulo the modulus. -/
def residue (a : Mod w N) : ZMod N.toNat := value a.limbs

/-- The limbs of a residue. -/
def ofResidue (w : ℕ) (N : Modulus) (z : ZMod N.toNat) : Mod w N :=
  ⟨N.dataType.image w z.val, by simp⟩

omit [NeZero w] in
/-- The residue of an integer is the number below the modulus that it is congruent to. -/
theorem val_eq {z z' : ℤ} (h : z ≡ z' [ZMOD N.toNat]) (hz₀ : 0 ≤ z') (hz : z' < N.toNat) :
    ((z : ZMod N.toNat).val : ℤ) = z' := by
  rw [ZMod.val_intCast, ← Int.emod_eq_of_lt hz₀ hz]
  exact h

theorem inRange_of_lt {z : ℤ} (hz₀ : 0 ≤ z) (hz : z < N.toNat) : N.dataType.InRange z := by
  have hlt : (N.toNat : ℤ) < 2 ^ N.bitSize := by exact_mod_cast N.lt_two_pow
  exact (N.dataType.inRange_unsigned rfl).mpr ⟨hz₀, hz.trans hlt⟩

theorem value_ofResidue (z : ZMod N.toNat) : value (ofResidue w N z).limbs = z.val := by
  have hlt : (z.val : ℤ) < N.toNat := by exact_mod_cast ZMod.val_lt z
  have hvalue := N.dataType.value_image_of_inRange (w := w) rfl
    (inRange_of_lt (Int.natCast_nonneg _) hlt)
  exact_mod_cast hvalue

theorem reduced_ofResidue (z : ZMod N.toNat) : (ofResidue w N z).Reduced := by
  rw [Reduced, value_ofResidue]
  exact ZMod.val_lt z

theorem residue_ofResidue (z : ZMod N.toNat) : (ofResidue w N z).residue = z := by
  rw [residue, value_ofResidue, ZMod.natCast_zmod_val]

theorem Reduced.eq_ofResidue {a : Mod w N} (ha : a.Reduced) : a = ofResidue w N a.residue := by
  have hvalue : value a.limbs = value (ofResidue w N a.residue).limbs := by
    rw [value_ofResidue, residue, ZMod.val_natCast, Nat.mod_eq_of_lt ha]
  apply Mod.ext
  exact value_injective (a.limb_size.trans (ofResidue w N a.residue).limb_size.symm) hvalue

omit [NeZero w] in
/-- The limbs of an array without sign are read as they are. -/
theorem denotes_limbs {t : SpanType} (hu : t.signedness = .unsigned)
    {l : List (BitVec w)} (hlen : l.length = t.limbSize w) :
    (BitSpan.mk t l).span.Denotes (value l) := by
  intro i
  show ((BitSpan.mk t l).extendedRead i t.normalType).value = digit w (value l) i
  rw [digit_value]
  unfold BitSpan.extendedRead
  split_ifs with hi
  · rw [value_runtime]
    unfold BitSpan.read
    dsimp only
    split_ifs
    · rfl
    · rfl
    · rfl
  · have hle : t.limbSize w ≤ i := Nat.le_of_not_lt hi
    rw [BitSpan.signMask]
    simp only [hu]
    rw [List.getD_eq_getElem?_getD, List.getElem?_eq_none (by omega)]
    rfl

omit [NeZero w] in
/-- The limbs of the result, while it is written. -/
theorem ownSpan_reads (before : List (BitVec w)) (hlen : before.length = N.limbSize w) :
    (ownSpan N).Reads before (N.limbSize w) (value before) := by
  intro i hi l hl hrest
  rw [digit_value, ← hrest i le_rfl, ← digit_value]
  exact denotes_limbs rfl (hl.trans hlen) i

/-- An operand that holds a number below the modulus. -/
structure Operand (N : Modulus) (x : Span w) (z : ℤ) : Prop where
  unsigned : Num.Unsigned x z
  lt : z < N.toNat
  bits : x.bitSize = N.bitSize

omit [NeZero w] in
theorem operand_span {l : List (BitVec w)} (hlen : l.length = N.limbSize w)
    (hlt : value l < N.toNat) : Operand N (BitSpan.mk N.dataType l).span (value l) where
  unsigned :=
    { denotes := denotes_limbs rfl hlen
      limbs := rfl
      nonneg := Int.natCast_nonneg _
      lt := by
        have hbits := hlt.trans N.lt_two_pow
        exact_mod_cast hbits }
  lt := by exact_mod_cast hlt
  bits := rfl

/-- A body computes an operation on residues. -/
def Body.Computes (body : Body w) (N : Modulus)
    (op : ZMod N.toNat → ZMod N.toNat → ZMod N.toNat) : Prop :=
  ∀ ⦃left right : Source w⦄ ⦃result : List (BitVec w)⦄ ⦃x y : ℤ⦄,
    result.length = N.limbSize w → Operand N (left result) x → Operand N (right result) y →
    body.run left right result = N.dataType.image w (op x y).val

variable (memory : ℕ → BitVec w)

/-- The sum of two operands below the modulus, after one conditional subtraction. -/
theorem val_add_eq {x y : ℤ} (hx₀ : 0 ≤ x) (hx : x < N.toNat) (hy₀ : 0 ≤ y) (hy : y < N.toNat) :
    (((x : ZMod N.toNat) + y).val : ℤ) =
      if x + y < N.toNat then x + y else x + y - N.toNat := by
  rw [← Int.cast_add]
  split_ifs with hlt
  · exact val_eq rfl (by omega) hlt
  · exact val_eq (Int.modEq_sub_modulus_iff.mpr rfl) (by omega) (by omega)

/-- The selection between a number and its difference to the modulus, which is stored in the limbs
of a type that has room for it. -/
theorem select_difference {t : SpanType} (hu : t.signedness = .unsigned) {z : ℤ}
    (hroom : (N.toNat : ℤ) ≤ 2 ^ t.bitSize) (hz : z < 2 * N.toNat) {difference : Source w}
    {sumSpan : Span w} {underflow : MaybeConstant Bit} {result : List (BitVec w)}
    (hlen : result.length = N.limbSize w)
    (hdifference : difference.Reads result (N.limbSize w) (value (t.image w (z - N.toNat))))
    (hsum : sumSpan.Denotes z) (hunderflow : underflow.value = 1 ↔ z < N.toNat) :
    Num.select N.dataType difference sumSpan.source underflow result =
      N.dataType.image w (if z < N.toNat then z else z - N.toNat) := by
  rw [Num.select_eq hlen hdifference (hsum.reads _ _) underflow]
  simp only [hunderflow]
  split_ifs with hlt
  · rfl
  · rw [t.value_image_of_inRange hu]
    exact (t.inRange_unsigned hu).mpr ⟨by omega, by omega⟩

theorem computes_addBody : (addBody memory N).Computes N (· + ·) := by
  intro left right result x y hlen hx hy
  have hx₀ := hx.unsigned.nonneg
  have hy₀ := hy.unsigned.nonneg
  have hxN := hx.lt
  have hyN := hy.lt
  have hbits : (N.toNat : ℤ) < 2 ^ N.bitSize := by exact_mod_cast N.lt_two_pow
  have hdata : (2 : ℤ) ^ N.bitSize ≤ (2 ^ w) ^ N.dataType.limbSize w := two_pow_le _
  unfold addBody
  dsimp only
  generalize hsumType : (⟨N.bitSize + 1, .unsigned, .unnormal⟩ : SpanType) = sumType
  have hu : sumType.signedness = .unsigned := by rw [← hsumType]
  have hwidth : (2 : ℤ) ^ sumType.bitSize = 2 ^ N.bitSize * 2 := by
    rw [← hsumType, ← pow_succ]
  have hroom := sumType.two_pow_le (w := w)
  -- the sum
  have hsum := (@Num.add_eq w sumType (left result).source (right result).source
    (Bigint.uninitialized memory (sumType.limbSize w)) _ _
    (Bigint.length_uninitialized _ _) (hx.unsigned.denotes.reads _ _)
    (hy.unsigned.denotes.reads _ _) _ (constant 0)).1
  have hzero : ((constant (0 : Bit)).value.toNat : ℤ) = 0 := rfl
  rw [hzero, add_zero] at hsum
  have hdenotes : (BitSpan.mk sumType (sumType.image w (x + y))).span.Denotes (x + y) := by
    have hread := denotes_limbs hu (sumType.length_image (w := w) (x + y))
    rwa [sumType.value_image_of_inRange hu
      ((sumType.inRange_unsigned hu).mpr ⟨by omega, by omega⟩)] at hread
  have hmodulus : (N.modulusSpan w).Denotes N.toNat :=
    (constantBitSpanOf_unsigned (w := w) N.toNat).denotes
  have hval := val_add_eq hx₀ hxN hy₀ hyN
  rw [hsum]
  generalize (BitSpan.mk sumType (sumType.image w (x + y))).span = sumSpan at hdenotes ⊢
  split_ifs with hlimbs
  · -- the difference is taken in the result itself
    have hlt : x + y < (2 ^ w) ^ N.dataType.limbSize w := by
      have hlimbs' : sumType.limbSize w = N.dataType.limbSize w := hlimbs
      rw [← hlimbs']
      omega
    obtain ⟨himage, hunderflow⟩ := @Num.subtract_underflow w N.dataType
      sumSpan.source (N.modulusSpan w).source result _ _ hlen
      (hdenotes.reads _ _) (hmodulus.reads _ _) _ (by omega) hlt (by omega) (by omega)
    have hown := ownSpan_reads (N := N) (N.dataType.image w (x + y - N.toNat))
      (N.dataType.length_image _)
    rw [himage, hval]
    exact select_difference (t := N.dataType) rfl hbits.le (by omega) (N.dataType.length_image _)
      hown hdenotes hunderflow
  · -- it has a limb more than the result
    obtain ⟨himage, hunderflow⟩ := @Num.subtract_underflow w sumType
      sumSpan.source (N.modulusSpan w).source
      (Bigint.uninitialized memory (sumType.limbSize w)) _ _
      (Bigint.length_uninitialized _ _) (hdenotes.reads _ _) (hmodulus.reads _ _) _ (by omega)
      (by omega) (by omega) (by omega)
    have hread := denotes_limbs hu (sumType.length_image (w := w) (x + y - N.toNat))
    rw [himage, hval]
    exact select_difference hu (by omega) (by omega) hlen (hread.reads _ _) hdenotes hunderflow

/-- The difference of two operands below the modulus, after one conditional addition. -/
theorem val_sub_eq {x y : ℤ} (hx₀ : 0 ≤ x) (hx : x < N.toNat) (hy₀ : 0 ≤ y) (hy : y < N.toNat) :
    (((x : ZMod N.toNat) - y).val : ℤ) = x - y + if x < y then (N.toNat : ℤ) else 0 := by
  rw [← Int.cast_sub]
  split_ifs with hlt
  · exact val_eq (Int.modEq_add_modulus_iff.mpr rfl) (by omega) (by omega)
  · exact val_eq (by rw [add_zero]) (by omega) (by omega)

theorem computes_subtractBody : (subtractBody memory N).Computes N (· - ·) := by
  intro left right result x y hlen hx hy
  have hx₀ := hx.unsigned.nonneg
  have hy₀ := hy.unsigned.nonneg
  have hxN := hx.lt
  have hyN := hy.lt
  have hbits : (N.toNat : ℤ) < 2 ^ N.bitSize := by exact_mod_cast N.lt_two_pow
  have hroom : (2 : ℤ) ^ N.bitSize ≤ (2 ^ w) ^ limbSizeFor w N.bitSize :=
    two_pow_le (w := w) ⟨N.bitSize, .unsigned, .unnormal⟩
  obtain ⟨himage, hunderflow⟩ := @Num.subtract_underflow w
    ⟨N.bitSize, .unsigned, .unnormal⟩ (left result).source (right result).source
    (Bigint.uninitialized memory (limbSizeFor w N.bitSize)) _ _
    (Bigint.length_uninitialized _ _) (hx.unsigned.denotes.reads _ _)
    (hy.unsigned.denotes.reads _ _) _ hx₀ (hxN.trans (hbits.trans_le hroom)) hy₀
    (hyN.trans (hbits.trans_le hroom))
  unfold subtractBody
  dsimp only
  rw [val_sub_eq hx₀ hxN hy₀ hyN]
  simp only [SpanType.limbSize] at himage hunderflow ⊢
  generalize Num.subtract ⟨N.bitSize, .unsigned, .unnormal⟩ (left result).source
    (right result).source (constant 0)
    (Bigint.uninitialized memory (limbSizeFor w N.bitSize)) = s at himage hunderflow ⊢
  -- the limbs of a negative difference are still its digits
  have hdifference : (BitSpan.mk ⟨N.bitSize, .unsigned, .unnormal⟩ s.1).span.source.Reads result
      (N.dataType.limbSize w) (x - y) := by
    intro i hi l _ _
    have hi' : i < limbSizeFor w N.bitSize := hi
    rw [Span.source_apply, Num.read_unnormal _ _ _ hi', himage]
    exact Num.getD_image_unnormal _ _ _ hi'
  have hmodulus := (constantBitSpanOf_unsigned (w := w) N.toNat).denotes.mask (runtime s.2.value)
  have hadd := (Num.add_eq (t := N.dataType) hlen hdifference
    (hmodulus.reads result (N.dataType.limbSize w)) (constant 0)).1
  have hzero : ((constant (0 : Bit)).value.toNat : ℤ) = 0 := rfl
  rw [hzero, add_zero, value_runtime] at hadd
  simp only [hunderflow] at hadd
  exact hadd

/-- Montgomery reduction divides by the power of the base. -/
theorem montgomeryReduce_eq {value : Span w} {T : ℤ} {r : ℕ} {result : List (BitVec w)}
    (hlen : result.length = N.limbSize w) (hvalue : value.Denotes T) (hT₀ : 0 ≤ T)
    (hT : T < (2 ^ w) ^ r * N.toNat) :
    Num.montgomeryReduce N.dataType value (N.modulusSpan w) r (N.inverseModulus w) result =
      N.dataType.image w ((T : ZMod N.toNat) * (((2 ^ w) ^ r : ℕ) : ZMod N.toNat)⁻¹).val := by
  obtain ⟨S, hS₀, hS, hcongr, himage⟩ := Num.montgomeryReduce_eq (t := N.dataType)
    (constantBitSpanOf_unsigned (w := w) N.toNat) (constantBitSpanOf_represents N.toNat)
    N.inverseModulus_dvd hvalue hT₀ hT hlen
  have hpow : Nat.Coprime ((2 ^ w) ^ r) N.toNat := by
    rw [← pow_mul]
    exact N.coprime_two_pow _
  have hresidue : ((S : ℤ) : ZMod N.toNat) =
      (T : ZMod N.toNat) * (((2 ^ w) ^ r : ℕ) : ZMod N.toNat)⁻¹ := by
    have hcast := (ZMod.intCast_eq_intCast_iff _ _ _).mpr hcongr
    rw [← hcast]
    push_cast
    have hunit := ZMod.coe_mul_inv_eq_one _ hpow
    push_cast at hunit
    rw [mul_assoc, hunit, mul_one]
  rw [Modulus.modulusSpan, himage, ← hresidue, val_eq rfl hS₀ hS]

omit [NeZero w] in
/-- The product of two operands has the bits of both, and compiles. -/
theorem multiplyBody_compiles {left right : Span w} {x y : ℤ} (hx : Operand N left x)
    (hy : Operand N right y) :
    Num.MultiplyCompiles ⟨N.bitSize + N.bitSize, .unsigned, .unnormal⟩ left right := by
  rw [Num.multiplyCompiles_iff, hx.bits, hy.bits]
  exact le_rfl

theorem computes_multiplyBody : (multiplyBody memory N).Computes N
    (fun x y => x * y * (N.auxiliaryModulus w : ZMod N.toNat)⁻¹) := by
  intro left right result x y hlen hx hy
  have hx₀ := hx.unsigned.nonneg
  have hy₀ := hy.unsigned.nonneg
  have hxy₀ : 0 ≤ x * y := mul_nonneg hx₀ hy₀
  have hN₀ : (0 : ℤ) < N.toNat := hx₀.trans_lt hx.lt
  have hxy : x * y < N.toNat * N.toNat := mul_lt_mul'' hx.lt hy.lt hx₀ hy₀
  have hR : (N.toNat : ℤ) < (2 ^ w) ^ N.limbSize w := by
    have := N.lt_auxiliaryModulus (w := w)
    unfold Modulus.auxiliaryModulus at this
    exact_mod_cast this
  have hcompiles := multiplyBody_compiles hx hy
  unfold multiplyBody
  dsimp only
  generalize hproductType : (⟨N.bitSize + N.bitSize, .unsigned, .unnormal⟩ : SpanType) =
    productType at hcompiles ⊢
  have hu : productType.signedness = .unsigned := by rw [← hproductType]
  have hwidth : productType.bitSize = N.bitSize + N.bitSize := by rw [← hproductType]
  have hmin : Nat.min productType.bitSize ((left result).bitSize + (right result).bitSize) =
      productType.bitSize := by
    rw [hx.bits, hy.bits, hwidth]
    exact Nat.min_self _
  have hlength : (Bigint.uninitialized memory (productType.limbSize w)).length = limbSizeFor w
      (Nat.min productType.bitSize ((left result).bitSize + (right result).bitSize)) := by
    rw [hmin, Bigint.length_uninitialized, SpanType.limbSize]
  have hproduct := Num.multiply_eq (t := productType) hx.unsigned hy.unsigned
    (fun hzero => Or.inr (hx.bits.trans (hy.bits.symm.trans hzero))) hcompiles
    hlength (Bigint.length_uninitialized memory _)
  -- the product has room in twice the bits of the modulus, so nothing of it is lost
  have hdenotes : (BitSpan.mk productType (productType.image w (x * y))).span.Denotes (x * y) := by
    have hread := denotes_limbs hu (productType.length_image (w := w) (x * y))
    have hlt : x * y < 2 ^ productType.bitSize := by
      rw [hwidth, pow_add]
      have hN : (N.toNat : ℤ) ≤ 2 ^ N.bitSize := by exact_mod_cast N.lt_two_pow.le
      exact hxy.trans_le (mul_le_mul hN hN hN₀.le (by positivity))
    rwa [productType.value_image_of_inRange hu
      ((productType.inRange_unsigned hu).mpr ⟨hxy₀, hlt⟩)] at hread
  rw [hproduct, montgomeryReduce_eq hlen hdenotes hxy₀
    (hxy.trans_le (Int.mul_le_mul_of_nonneg_right hR.le hN₀.le)), Int.cast_mul]
  rfl

/-! ## The ring -/

variable {a b : Mod w N}

theorem Reduced.limbs_eq (ha : a.Reduced) : a.limbs = N.dataType.image w (value a.limbs) := by
  have hlimbs := congrArg Mod.limbs ha.eq_ofResidue
  have hval : a.residue.val = value a.limbs := by
    rw [residue, ZMod.val_natCast, Nat.mod_eq_of_lt ha]
  rw [← hval]
  exact hlimbs

omit [NeZero w] in
theorem Reduced.operand (ha : a.Reduced) : Operand N a.span (value a.limbs) :=
  operand_span a.limb_size ha

/-- The assertions of a read hold, and comparisons see the number. -/
theorem Reduced.represents (ha : a.Reduced) : a.span.Represents (value a.limbs) := by
  have hrange : N.dataType.InRange (value a.limbs) :=
    inRange_of_lt (Int.natCast_nonneg _) (by exact_mod_cast ha)
  have hsigned : N.dataType.signedness = .signed → 0 < N.dataType.bitSize := by
    intro h
    cases h
  have hnormal := N.dataType.isNormal_array (w := w) hrange
  have hspan : (N.dataType.array w (value a.limbs)).span = a.span := by
    show (BitSpan.mk N.dataType (N.dataType.image w (value a.limbs))).span = a.span
    rw [← ha.limbs_eq, span]
  have hstored := BitArray.storedInt_eq_toInt _ hsigned hnormal
  rw [(Bigint.toInt_array_eq_iff _ _).mpr hrange] at hstored
  have hrepresents := BitArray.represents_span _ ⟨hsigned, fun _ => hnormal⟩
  rwa [hstored, hspan] at hrepresents

/-- What is stored, without the factor of the Montgomery form. -/
def toZMod (a : Mod w N) : ZMod N.toNat := a.residue * (N.auxiliaryModulus w : ZMod N.toNat)⁻¹

omit [NeZero w] in
theorem auxiliaryModulus_mul_inv :
    (N.auxiliaryModulus w : ZMod N.toNat) * (N.auxiliaryModulus w : ZMod N.toNat)⁻¹ = 1 := by
  apply ZMod.coe_mul_inv_eq_one
  rw [Modulus.auxiliaryModulus, ← pow_mul]
  exact N.coprime_two_pow _

theorem Reduced.toUnsigned_eq (ha : a.Reduced) :
    toUnsigned memory a = N.dataType.array w a.toZMod.val := by
  have hlt : (value a.limbs : ℤ) < (2 ^ w) ^ N.limbSize w * N.toNat := by
    have hN : (value a.limbs : ℤ) < N.toNat := by exact_mod_cast ha
    have hpow : (1 : ℤ) ≤ (2 ^ w) ^ N.limbSize w := one_le_pow₀ (one_le_pow₀ one_le_two)
    exact hN.trans_le (le_mul_of_one_le_left (Int.natCast_nonneg _) hpow)
  apply eq_array
  rw [montgomeryReduce_eq (Bigint.length_uninitialized memory _) ha.operand.unsigned.denotes
    (Int.natCast_nonneg _) hlt, Int.cast_natCast]
  rfl

/-- The conversion to an unsigned integer. -/
theorem Reduced.toInt_toUnsigned (ha : a.Reduced) :
    (toUnsigned memory a).toInt = a.toZMod.val := by
  rw [ha.toUnsigned_eq, Bigint.toInt_array_eq_iff]
  exact inRange_of_lt (Int.natCast_nonneg _) (by exact_mod_cast ZMod.val_lt _)

omit [NeZero w] in
/-- Each operator form stores what the body computes. -/
theorem operator_eq {body : Body w} {op : ZMod N.toNat → ZMod N.toNat → ZMod N.toNat}
    (hbody : body.Computes N op) (ha : a.Reduced) (hb : b.Reduced) :
    operator memory body a b = ofResidue w N (op a.residue b.residue) := by
  apply Mod.ext
  have hrun := @hbody a.span.source b.span.source _ _ _
    (Bigint.length_uninitialized memory _) ha.operand hb.operand
  rw [Int.cast_natCast, Int.cast_natCast] at hrun
  exact hrun

omit [NeZero w] in
theorem assign_eq {body : Body w} {op : ZMod N.toNat → ZMod N.toNat → ZMod N.toNat}
    (hbody : body.Computes N op) (ha : a.Reduced) (hb : b.Reduced) :
    assign body a b = ofResidue w N (op a.residue b.residue) := by
  apply Mod.ext
  have hrun := @hbody (ownSpan N) b.span.source _ _ _ a.limb_size ha.operand hb.operand
  rw [Int.cast_natCast, Int.cast_natCast] at hrun
  exact hrun

omit [NeZero w] in
theorem assignSelf_eq {body : Body w} {op : ZMod N.toNat → ZMod N.toNat → ZMod N.toNat}
    (hbody : body.Computes N op) (ha : a.Reduced) :
    assignSelf body a = ofResidue w N (op a.residue a.residue) := by
  apply Mod.ext
  have hrun := @hbody (ownSpan N) (ownSpan N) _ _ _ a.limb_size ha.operand ha.operand
  rw [Int.cast_natCast] at hrun
  exact hrun

/-- Nothing is subtracted from zero, so that the result stays below the modulus. -/
theorem negate_eq (ha : a.Reduced) : negate memory a = ofResidue w N (-a.residue) := by
  have hlt := ha.operand.lt
  -- the mask selects the modulus for all values but zero
  have hmask : Num.notEqualTo a.span (nullspan w) = 1 ↔ value a.limbs ≠ 0 := by
    have hzero := Num.notEqualTo_eq_zero_iff ha.represents nullspan_represents
    rw [Num.sameDigits_iff_of_unsigned ha.represents nullspan_represents rfl rfl,
      Nat.cast_eq_zero] at hzero
    rw [ne_eq, ← hzero]
    rcases bit_eq (Num.notEqualTo a.span (nullspan w)) with hbit | hbit <;> simp [hbit]
  have hval : ((-a.residue).val : ℤ) =
      (if value a.limbs ≠ 0 then (N.toNat : ℤ) else 0) - value a.limbs := by
    have hcast : -a.residue = ((-value a.limbs : ℤ) : ZMod N.toNat) := by
      rw [residue]
      push_cast
      rfl
    rw [hcast]
    split_ifs with hzero
    · exact val_eq (Int.modEq_sub_modulus_iff.mp (by ring_nf; rfl)) (by omega) (by omega)
    · exact val_eq (by rw [zero_sub]) (by omega) (by omega)
  apply Mod.ext
  have hmodulus := (constantBitSpanOf_unsigned (w := w) N.toNat).denotes.mask
    (runtime (Num.notEqualTo a.span (nullspan w)))
  have hsubtract := (Num.subtract_eq (t := N.dataType)
    (Bigint.length_uninitialized memory (N.limbSize w)) (hmodulus.reads _ _)
    (ha.operand.unsigned.denotes.reads _ _) (constant 0)).1
  have hborrow : ((constant (0 : Bit)).value.toNat : ℤ) = 0 := rfl
  rw [hborrow, sub_zero, value_runtime] at hsubtract
  simp only [hmask] at hsubtract
  rw [← hval] at hsubtract
  exact hsubtract

omit [NeZero w] in
theorem residue_eq (a : Mod w N) : a.residue = a.toZMod * N.auxiliaryModulus w := by
  rw [toZMod, mul_assoc, mul_comm _ (N.auxiliaryModulus w : ZMod N.toNat),
    auxiliaryModulus_mul_inv, mul_one]

/-- Comparisons for equality compare what is stored. -/
theorem equalTo_iff (ha : a.Reduced) (hb : b.Reduced) :
    (equalTo a b = 1 ↔ a.toZMod = b.toZMod) ∧ (notEqualTo a b = 0 ↔ a.toZMod = b.toZMod) := by
  have hstored : (value a.limbs : ℤ) = value b.limbs ↔ a.toZMod = b.toZMod := by
    constructor
    · intro h
      rw [toZMod, toZMod, residue, residue, Nat.cast_inj.mp h]
    · intro h
      have hresidue : a.residue = b.residue := by rw [residue_eq, residue_eq, h]
      have hval := congrArg ZMod.val hresidue
      rw [residue, residue, ZMod.val_natCast, ZMod.val_natCast, Nat.mod_eq_of_lt ha,
        Nat.mod_eq_of_lt hb] at hval
      exact congrArg Nat.cast hval
  rw [← hstored]
  unfold equalTo notEqualTo
  rw [Num.equalTo_eq_one_iff ha.represents hb.represents,
    Num.notEqualTo_eq_zero_iff ha.represents hb.represents,
    Num.sameDigits_iff_of_unsigned ha.represents hb.represents rfl rfl]
  exact ⟨Iff.rfl, Iff.rfl⟩

/-- A value is below the modulus, and its unsigned conversion is `z` modulo the modulus. -/
def Holds (memory : ℕ → BitVec w) (c : Mod w N) (z : ℤ) : Prop :=
  c.Reduced ∧ (toUnsigned memory c).toInt = z % N.toNat

theorem holds_ofResidue {x : ZMod N.toNat} {z : ℤ}
    (h : x * (N.auxiliaryModulus w : ZMod N.toNat)⁻¹ = z) : Holds memory (ofResidue w N x) z := by
  refine ⟨reduced_ofResidue x, ?_⟩
  rw [(reduced_ofResidue x).toInt_toUnsigned, toZMod, residue_ofResidue, h, ZMod.val_intCast]

theorem cast_toUnsigned (ha : a.Reduced) :
    (((toUnsigned memory a).toInt : ℤ) : ZMod N.toNat) = a.toZMod := by
  rw [ha.toInt_toUnsigned, Int.cast_natCast, ZMod.natCast_zmod_val]

/-- **The integers modulo an odd number.** All forms of the operators stay below the modulus, the
unsigned conversion takes them to the operations of the integers modulo it, and the equality
compares what it returns. -/
theorem operators_modulo (ha : a.Reduced) (hb : b.Reduced) :
    let x := (toUnsigned memory a).toInt
    let y := (toUnsigned memory b).toInt
    (0 ≤ x ∧ x < N.toNat) ∧
    Holds memory (add memory a b) (x + y) ∧
    Holds memory (subtract memory a b) (x - y) ∧
    Holds memory (multiply memory a b) (x * y) ∧
    Holds memory (negate memory a) (-x) ∧
    Holds memory (addAssign memory a b) (x + y) ∧
    Holds memory (subtractAssign memory a b) (x - y) ∧
    Holds memory (multiplyAssign memory a b) (x * y) ∧
    Holds memory (assignSelf (addBody memory N) a) (x + x) ∧
    Holds memory (assignSelf (subtractBody memory N) a) (x - x) ∧
    Holds memory (assignSelf (multiplyBody memory N) a) (x * x) ∧
    (equalTo a b = 1 ↔ x = y) ∧ (notEqualTo a b = 0 ↔ x = y) := by
  intro x y
  have hx : (x : ZMod N.toNat) = a.toZMod := cast_toUnsigned memory ha
  have hy : (y : ZMod N.toNat) = b.toZMod := cast_toUnsigned memory hb
  have hxval : x = a.toZMod.val := ha.toInt_toUnsigned memory
  have hyval : y = b.toZMod.val := hb.toInt_toUnsigned memory
  have hequal : a.toZMod = b.toZMod ↔ x = y := by
    rw [hxval, hyval, Nat.cast_inj]
    exact ⟨fun h => by rw [h], fun h => ZMod.val_injective _ h⟩
  clear_value x y
  -- the forms of an operator have one body, so three facts are enough for all of them
  have hadd {c d : Mod w N} {u v : ℤ} (hu : (u : ZMod N.toNat) = c.toZMod)
      (hv : (v : ZMod N.toNat) = d.toZMod) :
      Holds memory (ofResidue w N (c.residue + d.residue)) (u + v) := by
    apply holds_ofResidue
    rw [Int.cast_add, hu, hv, add_mul]
    rfl
  have hsubtract {c d : Mod w N} {u v : ℤ} (hu : (u : ZMod N.toNat) = c.toZMod)
      (hv : (v : ZMod N.toNat) = d.toZMod) :
      Holds memory (ofResidue w N (c.residue - d.residue)) (u - v) := by
    apply holds_ofResidue
    rw [Int.cast_sub, hu, hv, sub_mul]
    rfl
  have hmultiply {c d : Mod w N} {u v : ℤ} (hu : (u : ZMod N.toNat) = c.toZMod)
      (hv : (v : ZMod N.toNat) = d.toZMod) :
      Holds memory (ofResidue w N
        (c.residue * d.residue * (N.auxiliaryModulus w : ZMod N.toNat)⁻¹)) (u * v) := by
    apply holds_ofResidue
    rw [Int.cast_mul, hu, hv, toZMod, toZMod]
    ring
  refine ⟨⟨?_, ?_⟩, ?_, ?_, ?_, ?_, ?_, ?_, ?_, ?_, ?_, ?_, ?_, ?_⟩
  · rw [hxval]
    exact Int.natCast_nonneg _
  · rw [hxval]
    exact_mod_cast ZMod.val_lt _
  · rw [add, operator_eq memory (computes_addBody memory) ha hb]
    exact hadd hx hy
  · rw [subtract, operator_eq memory (computes_subtractBody memory) ha hb]
    exact hsubtract hx hy
  · rw [multiply, operator_eq memory (computes_multiplyBody memory) ha hb]
    exact hmultiply hx hy
  · rw [negate_eq memory ha]
    apply holds_ofResidue
    rw [Int.cast_neg, hx, toZMod, neg_mul]
  · rw [addAssign, assign_eq (computes_addBody memory) ha hb]
    exact hadd hx hy
  · rw [subtractAssign, assign_eq (computes_subtractBody memory) ha hb]
    exact hsubtract hx hy
  · rw [multiplyAssign, assign_eq (computes_multiplyBody memory) ha hb]
    exact hmultiply hx hy
  · rw [assignSelf_eq (computes_addBody memory) ha]
    exact hadd hx hx
  · rw [assignSelf_eq (computes_subtractBody memory) ha]
    exact hsubtract hx hx
  · rw [assignSelf_eq (computes_multiplyBody memory) ha]
    exact hmultiply hx hx
  · rw [(equalTo_iff ha hb).1, hequal]
  · rw [(equalTo_iff ha hb).2, hequal]

/-- A prime of sixteen bits. -/
def prime : Modulus := ⟨16, .normal, 40961, by decide, by decide, by decide⟩

/-- The largest stored value. -/
def largest : Mod 32 prime := ⟨[0xA000], by decide +kernel⟩

theorem reduced_largest : largest.Reduced := by
  unfold Reduced
  decide

/-- A modulus whose two limbs have no room for the sum of two values. -/
def wide : Modulus := ⟨64, .normal, 2 ^ 64 - 59, by decide, by decide, by decide⟩

def largestWide : Mod 32 wide := ⟨[0xFFFFFFC4, 0xFFFFFFFF], by decide +kernel⟩

theorem reduced_largestWide : largestWide.Reduced := by
  unfold Reduced
  decide +kernel

theorem operators_modulo_largest :
    let x := (toUnsigned (fun _ => 0) largestWide).toInt
    Holds (fun _ => 0) (assignSelf (addBody (fun _ => 0) wide) largestWide) (x + x) :=
  (operators_modulo (fun _ => 0) reduced_largestWide reduced_largestWide).2.2.2.2.2.2.2.2.1

end Mod

end

end Hmpc.Ints
