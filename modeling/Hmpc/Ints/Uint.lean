/-
# Hmpc.Ints.Uint -- unsigned integers that wrap around

The limbs of `uint<Bits>` are not normal: the bits of the last one above `Bits` may be anything.
The operators run the functions of `hmpc::core::num` on them, either into a new result or, for the
assignments, over their own left operand; the right operand of an assignment may be the same
object. Each computes the operation of `BitVec` on the bits that belong to the operands.
-/
import Hmpc.Core.Bitwise
import Hmpc.Core.Compare
import Hmpc.Core.Convert
import Hmpc.Ints.Bigint

namespace Hmpc.Ints

open Hmpc.Core Hmpc.Lib.Limbs Hmpc.Lib.Digits MaybeConstant SpanType

variable {w bits : ℕ}

/-- `uint<Bits, Limb>` -/
structure Uint (w bits : ℕ) where
  data : List (BitVec w)
  limb_size : data.length = limbSizeFor w bits

namespace Uint

/-- The type of `span()`. -/
def spanType (bits : ℕ) : SpanType := ⟨bits, .unsigned, .unnormal⟩

def array (x : Uint w bits) : BitArray w := ⟨⟨spanType bits, x.data⟩, x.limb_size⟩

def span (x : Uint w bits) : Span w := x.array.span

/-- The bits that belong to the integer. -/
def toBitVec (x : Uint w bits) : BitVec bits := BitVec.ofNat bits (value x.data)

/-! ## Operators -/

/-- A function of two operands, which an operator and an assignment call. -/
structure Function (w : ℕ) where
  run : SpanType → Source w → Source w → List (BitVec w) → List (BitVec w)
  length_run : ∀ t left right result, (run t left right result).length = result.length

/-- `HMPC_OPERATOR` -/
def operator (function : Function w) (memory : ℕ → BitVec w) (left right : Uint w bits) :
    Uint w bits :=
  ⟨function.run (spanType bits) left.span.source right.span.source
    (Bigint.uninitialized memory (limbSizeFor w bits)),
    (function.length_run _ _ _ _).trans (Bigint.length_uninitialized _ _)⟩

/-- `HMPC_ASSIGNMENT_OPERATOR`: the left operand is the result, the right one may be. -/
def assign (function : Function w) (this : Uint w bits) (other : Source w) : Uint w bits :=
  ⟨function.run (spanType bits) (spanType bits).result other this.data,
    (function.length_run _ _ _ _).trans this.limb_size⟩

def addFunction : Function w :=
  ⟨fun t left right result => (Core.Num.add t left right (constant 0) result).1,
    fun t left right result => Core.Num.length_add t left right (constant 0) result⟩

def subtractFunction : Function w :=
  ⟨fun t left right result => (Num.subtract t left right (constant 0) result).1,
    fun t left right result => Num.length_subtract t left right (constant 0) result⟩

/-- The operands are read before the first limb of the result is written. -/
def multiplyFunction (memory : ℕ → BitVec w) : Function w :=
  ⟨fun t left right result => Num.multiply t (left result) (right result)
      (Bigint.uninitialized memory (limbSizeFor w
        (Nat.min t.bitSize ((left result).bitSize + (right result).bitSize)))) result,
    fun t left right result => Num.length_multiply t (left result) (right result) _ result⟩

def bitAndFunction : Function w := ⟨Num.bitAnd, Num.length_bitwise _⟩
def bitOrFunction : Function w := ⟨Num.bitOr, Num.length_bitwise _⟩
def bitXorFunction : Function w := ⟨Num.bitXor, Num.length_bitXor⟩

section Operators

variable (memory : ℕ → BitVec w) (left right this : Uint w bits) (other : Source w)

/-- `left + right` -/
def add : Uint w bits := operator addFunction memory left right
/-- `left - right` -/
def subtract : Uint w bits := operator subtractFunction memory left right
/-- `left * right` -/
def multiply : Uint w bits := operator (multiplyFunction memory) memory left right
/-- `left & right` -/
def bitAnd : Uint w bits := operator bitAndFunction memory left right
/-- `left | right` -/
def bitOr : Uint w bits := operator bitOrFunction memory left right
/-- `left ^ right` -/
def bitXor : Uint w bits := operator bitXorFunction memory left right

/-- `this += other` -/
def addAssign : Uint w bits := assign addFunction this other
/-- `this -= other` -/
def subtractAssign : Uint w bits := assign subtractFunction this other
/-- `this *= other` -/
def multiplyAssign : Uint w bits := assign (multiplyFunction memory) this other
/-- `this &= other` -/
def bitAndAssign : Uint w bits := assign bitAndFunction this other
/-- `this |= other` -/
def bitOrAssign : Uint w bits := assign bitOrFunction this other
/-- `this ^= other` -/
def bitXorAssign : Uint w bits := assign bitXorFunction this other

/-- `-x` -/
def negate (x : Uint w bits) : Uint w bits :=
  ⟨Num.negate (spanType bits) x.span.source (Bigint.uninitialized memory (limbSizeFor w bits))
    (Bigint.uninitialized memory (limbSizeFor w bits)),
    (Num.length_negate _ _ _ _).trans (Bigint.length_uninitialized _ _)⟩

/-- `~x` -/
def bitNot (x : Uint w bits) : Uint w bits :=
  ⟨Num.bitNot (spanType bits) x.span.source (Bigint.uninitialized memory (limbSizeFor w bits)),
    (Num.length_bitNot _ _ _).trans (Bigint.length_uninitialized _ _)⟩

/-- `x << Shift` -/
def shiftLeft (shift : ℕ) (x : Uint w bits) : Uint w bits :=
  ⟨Num.shiftLeftOver shift (spanType bits) x.span.source
    (Bigint.uninitialized memory (limbSizeFor w bits)),
    (Num.length_shiftLeftOver _ _ _ _).trans (Bigint.length_uninitialized _ _)⟩

/-- `x >> Shift` -/
def shiftRight (shift : ℕ) (x : Uint w bits) : Uint w bits :=
  ⟨Num.shiftRightOver shift (spanType bits) x.span.source
    (Bigint.uninitialized memory (limbSizeFor w bits)),
    (Num.length_shiftRightOver _ _ _ _).trans (Bigint.length_uninitialized _ _)⟩

/-- `this <<= Shift` -/
def shiftLeftAssign (shift : ℕ) : Uint w bits :=
  ⟨Num.shiftLeftOver shift (spanType bits) (spanType bits).result this.data,
    (Num.length_shiftLeftOver _ _ _ _).trans this.limb_size⟩

/-- `this >>= Shift` -/
def shiftRightAssign (shift : ℕ) : Uint w bits :=
  ⟨Num.shiftRightOver shift (spanType bits) (spanType bits).result this.data,
    (Num.length_shiftRightOver _ _ _ _).trans this.limb_size⟩

/-- `left == right` -/
def equalTo : Bit := Num.equalTo left.span right.span
/-- `left != right` -/
def notEqualTo : Bit := Num.notEqualTo left.span right.span
/-- `left > right` -/
def greater : Bit := Num.greater left.span right.span
/-- `left < right` -/
def less : Bit := Num.less left.span right.span
/-- `left >= right` -/
def greaterEqual : Bit := Num.greaterEqual left.span right.span
/-- `left <= right` -/
def lessEqual : Bit := Num.lessEqual left.span right.span

end Operators

/-! ## What they compute -/

/-- An operator, and the assignment to its left operand, when the right one is another object and
when it is the same one. -/
structure Computes (bits : ℕ) (binary : Uint w bits → Uint w bits → Uint w bits)
    (assignment : Uint w bits → Source w → Uint w bits)
    (operation : BitVec bits → BitVec bits → BitVec bits) : Prop where
  operator (x y : Uint w bits) : (binary x y).toBitVec = operation x.toBitVec y.toBitVec
  assign (x y : Uint w bits) :
    (assignment x y.span.source).toBitVec = operation x.toBitVec y.toBitVec
  aliased (x : Uint w bits) :
    (assignment x (spanType bits).result).toBitVec = operation x.toBitVec x.toBitVec

/-- The operators are those of integers modulo `2 ^ bits`, whatever is above their bits. -/
structure WrapsAround (memory : ℕ → BitVec w) (bits : ℕ) : Prop where
  add : Computes bits (add memory) addAssign (· + ·)
  subtract : Computes bits (subtract memory) subtractAssign (· - ·)
  multiply : Computes bits (multiply memory) (multiplyAssign memory) (· * ·)
  bitAnd : Computes bits (bitAnd memory) bitAndAssign (· &&& ·)
  bitOr : Computes bits (bitOr memory) bitOrAssign (· ||| ·)
  bitXor : Computes bits (bitXor memory) bitXorAssign (· ^^^ ·)
  negate (x : Uint w bits) : (negate memory x).toBitVec = -x.toBitVec
  bitNot (x : Uint w bits) : (bitNot memory x).toBitVec = ~~~x.toBitVec
  shiftLeft (x : Uint w bits) (shift : ℕ) :
    (shiftLeft memory shift x).toBitVec = x.toBitVec <<< shift ∧
      (shiftLeftAssign x shift).toBitVec = x.toBitVec <<< shift
  shiftRight (x : Uint w bits) (shift : ℕ) :
    (shiftRight memory shift x).toBitVec = x.toBitVec >>> shift ∧
      (shiftRightAssign x shift).toBitVec = x.toBitVec >>> shift
  equalTo (x y : Uint w bits) : equalTo x y = bitOf (x.toBitVec = y.toBitVec)
  notEqualTo (x y : Uint w bits) : notEqualTo x y = bitOf (x.toBitVec ≠ y.toBitVec)
  greater (x y : Uint w bits) : greater x y = bitOf (x.toBitVec > y.toBitVec)
  less (x y : Uint w bits) : less x y = bitOf (x.toBitVec < y.toBitVec)
  greaterEqual (x y : Uint w bits) : greaterEqual x y = bitOf (x.toBitVec ≥ y.toBitVec)
  lessEqual (x y : Uint w bits) : lessEqual x y = bitOf (x.toBitVec ≤ y.toBitVec)

/-- An operand is another object, or the result, with the number of all its limbs. -/
inductive Operand (bits : ℕ) (result : List (BitVec w)) : Source w → ℕ → Prop
  | apart (x : Uint w bits) : Operand bits result x.span.source (value x.data)
  | shared : Operand bits result (spanType bits).result (value result)

section

variable {x : Source w} {result : List (BitVec w)} {z : ℕ} (h : Operand bits result x z)
include h

theorem Operand.reads : x.Reads result (limbSizeFor w bits) z := by
  cases h with
  | apart x => exact x.array.reads_limbs _
  | shared => exact (spanType bits).result_reads _

theorem Operand.readsBelow : Num.ReadsBelow x result (limbSizeFor w bits) z := by
  cases h with
  | apart x =>
      intro i hi l _
      exact x.array.reads_limbs result i hi result rfl fun _ _ => rfl
  | shared =>
      intro i hi l hrest
      show ((BitSpan.mk (spanType bits) l).span.read i).value = _
      rw [(BitSpan.mk (spanType bits) l).read_span hi, digit_value]
      exact hrest i le_rfl

end

theorem readable (x : Uint w bits) : x.array.Readable where
  signed_pos h := absurd h Signedness.noConfusion
  isNormal h := absurd h Normalization.noConfusion

theorem storedInt_array (x : Uint w bits) : x.array.storedInt = x.toBitVec.toNat := by
  unfold BitArray.storedInt toBitVec
  rw [BitVec.toNat_ofNat]
  push_cast
  rfl

section

variable {x : Source w} {result : List (BitVec w)} {z : ℕ} (h : Operand bits result x z)
  (hlen : result.length = limbSizeFor w bits)
include h hlen

/-- Before the first limb is written. -/
theorem Operand.eq_span : ∃ y : Uint w bits, x result = y.span ∧ z = value y.data := by
  cases h with
  | apart x => exact ⟨x, rfl, rfl⟩
  | shared => exact ⟨⟨result, hlen⟩, rfl, rfl⟩

end

/-- All limbs, as a number. -/
theorem limbed (x : Uint w bits) : Num.Limbed x.span (value x.data) where
  denotes i := by
    rcases Nat.lt_or_ge i (limbSizeFor w bits) with hi | hi
    · exact x.array.reads_limbs x.data i hi x.data rfl fun _ _ => rfl
    · have hlt := value_lt x.data
      have hout : ¬ i < x.array.type.limbSize w := Nat.not_lt.mpr hi
      rw [x.limb_size] at hlt
      rw [digit_of_lt (Int.natCast_nonneg _) (by exact_mod_cast hlt) hi]
      show (x.array.extendedRead i .unnormal).value = 0
      rw [BitSpan.extendedRead, if_neg hout]
      rfl
  nonneg := Int.natCast_nonneg _
  lt := by
    have hlt := value_lt x.data
    rw [x.limb_size] at hlt
    exact_mod_cast hlt

section

variable [NeZero w]

section

variable {x : Source w} {result : List (BitVec w)} {z : ℕ} (h : Operand bits result x z)
  (hlen : result.length = limbSizeFor w bits)
include h hlen

/-- With `normal` access the bits above those of the operand are masked. -/
theorem Operand.readsNormal : Num.ReadsNormal x result (z % 2 ^ bits : ℕ) := by
  have hread (y : Uint w bits) (i : ℕ) :
      (y.span.readNormal i).value = digit w (value y.data % 2 ^ bits : ℕ) i := by
    have hdigit := y.array.denotesNormal_span y.readable i
    rw [storedInt_array, toBitVec, BitVec.toNat_ofNat] at hdigit
    exact hdigit
  cases h with
  | apart x => exact fun i l _ => hread x i
  | shared =>
      intro i l hrest
      rw [← hread ⟨result, hlen⟩]
      show (BitSpan.extendedRead ⟨spanType bits, l⟩ i .normal).value =
        (BitSpan.extendedRead ⟨spanType bits, result⟩ i .normal).value
      have hlimb : l.getD i 0 = result.getD i 0 := hrest i le_rfl
      simp only [BitSpan.extendedRead, BitSpan.read, BitSpan.signMask, hlimb, spanType]

end

/-- What a function writes of an integer. -/
theorem toBitVec_image {x : Uint w bits} {z : ℤ} (h : x.data = (spanType bits).image w z) :
    x.toBitVec = BitVec.ofInt bits z := by
  have hmod := (spanType bits).value_image_mod (w := w) z
  rw [toBitVec, h]
  apply BitVec.eq_of_toNat_eq
  zify
  rw [toNat_ofInt, BitVec.toNat_ofNat]
  push_cast
  exact hmod

/-- A function, for operands of which one may be the result. -/
def Function.Computes (function : Function w) (bits : ℕ)
    (operation : BitVec bits → BitVec bits → BitVec bits) : Prop :=
  ∀ (left right : Source w) (result : List (BitVec w)) (x y : ℕ),
    result.length = limbSizeFor w bits →
    Operand bits result left x → Operand bits result right y →
    ∃ z, function.run (spanType bits) left right result = (spanType bits).image w z ∧
      BitVec.ofInt bits z = operation (BitVec.ofNat bits x) (BitVec.ofNat bits y)

/-- The operator and the assignment only differ in where the operands are. -/
theorem Function.Computes.computes {function : Function w}
    {operation : BitVec bits → BitVec bits → BitVec bits}
    (h : function.Computes bits operation) (memory : ℕ → BitVec w) :
    Uint.Computes bits (operator function memory) (assign function) operation where
  operator x y := by
    obtain ⟨z, himage, hz⟩ := h x.span.source y.span.source _ _ _
      (Bigint.length_uninitialized memory _) (.apart x) (.apart y)
    exact (toBitVec_image himage).trans hz
  assign x y := by
    obtain ⟨z, himage, hz⟩ := h (spanType bits).result y.span.source x.data _ _ x.limb_size
      .shared (.apart y)
    exact (toBitVec_image (x := assign function x y.span.source) himage).trans hz
  aliased x := by
    obtain ⟨z, himage, hz⟩ := h (spanType bits).result (spanType bits).result x.data _ _
      x.limb_size .shared .shared
    exact (toBitVec_image (x := assign function x (spanType bits).result) himage).trans hz

theorem addFunction_computes : (addFunction : Function w).Computes bits (· + ·) := by
  intro left right result x y hlen hx hy
  refine ⟨_, (Core.Num.add_eq (t := spanType bits) hlen hx.reads hy.reads (constant 0)).1, ?_⟩
  show BitVec.ofInt bits (x + y + 0) = _
  rw [add_zero, BitVec.ofInt_add, BitVec.ofInt_natCast, BitVec.ofInt_natCast]

theorem subtractFunction_computes : (subtractFunction : Function w).Computes bits (· - ·) := by
  intro left right result x y hlen hx hy
  refine ⟨_, (Num.subtract_eq (t := spanType bits) hlen hx.reads hy.reads (constant 0)).1, ?_⟩
  show BitVec.ofInt bits (x - y - 0) = BitVec.ofNat bits x - BitVec.ofNat bits y
  rw [sub_zero, Int.sub_eq_add_neg, BitVec.ofInt_add, BitVec.ofInt_neg, BitVec.ofInt_natCast,
    BitVec.ofInt_natCast, BitVec.sub_eq_add_neg]

omit [NeZero w] in
/-- The product has the limbs of its operands, so that none is left above its array. -/
theorem multiply_compiles {left right : Span w} (hl : left.bitSize = bits) :
    Num.MultiplyCompiles (spanType bits) left right := by
  rw [Num.multiplyCompiles_iff, hl]
  exact limbSizeFor_mono (Nat.le_add_right _ _)

/-- The product is cut off at the limbs of the result, which the operands have as well. -/
theorem multiplyFunction_computes (memory : ℕ → BitVec w) :
    (multiplyFunction memory).Computes bits (· * ·) := by
  intro left right result x y hlen hx hy
  obtain ⟨a, ha, rfl⟩ := hx.eq_span hlen
  obtain ⟨b, hb, rfl⟩ := hy.eq_span hlen
  have hmin : Nat.min bits (bits + bits) = bits := Nat.min_eq_left (Nat.le_add_left _ _)
  have hbits : limbSizeFor w bits = limbSizeFor w
      (Nat.min (spanType bits).bitSize (a.span.bitSize + b.span.bitSize)) := by
    show _ = limbSizeFor w (Nat.min bits (bits + bits))
    rw [hmin]
  have hfilled := Num.multiply_filled_of_limbed (t := spanType bits) a.limbed b.limbed rfl rfl
    hbits id (Bigint.length_uninitialized memory _) hlen
  have hcompiles : Num.MultiplyCompiles (spanType bits) a.span b.span := multiply_compiles rfl
  have hproduct := hcompiles.done hbits hfilled hlen
  refine ⟨(value a.data * value b.data : ℕ), ?_, ?_⟩
  · show Num.multiply (spanType bits) (left result) (right result)
      (Bigint.uninitialized memory (limbSizeFor w
        (Nat.min bits ((left result).bitSize + (right result).bitSize)))) result = _
    rw [ha, hb]
    show Num.multiply (spanType bits) a.span b.span
      (Bigint.uninitialized memory (limbSizeFor w (Nat.min bits (bits + bits)))) result = _
    rw [hmin, hproduct]
    push_cast
    rfl
  · rw [BitVec.ofInt_natCast, BitVec.ofNat_mul]

omit [NeZero w] in
theorem bitAndFunction_computes : (bitAndFunction : Function w).Computes bits (· &&& ·) := by
  intro left right result x y hlen hx hy
  refine ⟨_, Num.bitAnd_eq (t := spanType bits) hlen hx.reads hy.reads, ?_⟩
  rw [BitVec.ofInt_natCast, BitVec.ofNat_and]

omit [NeZero w] in
theorem bitOrFunction_computes : (bitOrFunction : Function w).Computes bits (· ||| ·) := by
  intro left right result x y hlen hx hy
  refine ⟨_, Num.bitOr_eq (t := spanType bits) hlen hx.reads hy.reads, ?_⟩
  rw [BitVec.ofInt_natCast, BitVec.ofNat_or]

omit [NeZero w] in
theorem bitXorFunction_computes : (bitXorFunction : Function w).Computes bits (· ^^^ ·) := by
  intro left right result x y hlen hx hy
  refine ⟨_, Num.bitXor_eq (t := spanType bits) hlen hx.reads hy.reads, ?_⟩
  rw [BitVec.ofInt_natCast, BitVec.ofNat_xor]

theorem toBitVec_negate (memory : ℕ → BitVec w) (x : Uint w bits) :
    (negate memory x).toBitVec = -x.toBitVec := by
  have himage := Num.negate_eq (t := spanType bits) (Bigint.length_uninitialized memory _)
    (Bigint.length_uninitialized memory _) (x.array.reads_limbs _)
  rw [toBitVec_image (x := negate memory x) himage, BitVec.ofInt_neg, BitVec.ofInt_natCast]
  rfl

theorem toBitVec_bitNot (memory : ℕ → BitVec w) (x : Uint w bits) :
    (bitNot memory x).toBitVec = ~~~x.toBitVec := by
  have himage := Num.bitNot_eq (t := spanType bits) (Bigint.length_uninitialized memory _)
    (x.array.reads_limbs _)
  rw [toBitVec_image (x := bitNot memory x) himage, Int.sub_eq_add_neg, BitVec.ofInt_add,
    BitVec.ofInt_neg, BitVec.ofInt_neg, BitVec.ofInt_natCast, BitVec.not_eq_neg_add,
    BitVec.sub_eq_add_neg, BitVec.add_comm]
  rfl

/-- A shift to the left does not read the bits above those of the operand into the result, since
they are shifted further up. -/
theorem shiftLeftOver_computes {operand : Source w} {result : List (BitVec w)} {z : ℕ}
    (h : Operand bits result operand z) (hlen : result.length = limbSizeFor w bits) (shift : ℕ)
    {x : Uint w bits}
    (hx : x.data = Num.shiftLeftOver shift (spanType bits) operand result) :
    x.toBitVec = BitVec.ofNat bits z <<< shift := by
  have himage := Num.shiftLeftOver_eq (t := spanType bits) hlen h.readsBelow shift
  rw [toBitVec_image (hx.trans himage)]
  apply BitVec.eq_of_toNat_eq
  have hcast : (z : ℤ) * 2 ^ shift = (z * 2 ^ shift : ℕ) := by push_cast; rfl
  rw [hcast, BitVec.ofInt_natCast, BitVec.toNat_ofNat, BitVec.toNat_shiftLeft, BitVec.toNat_ofNat,
    Nat.shiftLeft_eq, Nat.mod_mul_mod]

/-- A shift to the right masks them. -/
theorem shiftRightOver_computes {operand : Source w} {result : List (BitVec w)} {z : ℕ}
    (h : Operand bits result operand z) (hlen : result.length = limbSizeFor w bits) (shift : ℕ)
    {x : Uint w bits}
    (hx : x.data = Num.shiftRightOver shift (spanType bits) operand result) :
    x.toBitVec = BitVec.ofNat bits z >>> shift := by
  have himage := Num.shiftRightOver_eq (t := spanType bits) hlen (h.readsNormal hlen) shift
  rw [toBitVec_image (hx.trans himage)]
  apply BitVec.eq_of_toNat_eq
  have hcast : ((z % 2 ^ bits : ℕ) : ℤ) / 2 ^ shift = (z % 2 ^ bits / 2 ^ shift : ℕ) := by
    push_cast
    rfl
  have hlt : z % 2 ^ bits / 2 ^ shift < 2 ^ bits :=
    (Nat.div_le_self _ _).trans_lt (Nat.mod_lt _ (Nat.two_pow_pos bits))
  rw [hcast, BitVec.ofInt_natCast, BitVec.toNat_ofNat, BitVec.toNat_ushiftRight,
    BitVec.toNat_ofNat, Nat.shiftRight_eq_div_pow, Nat.mod_eq_of_lt hlt]

/-- The comparisons read with `normal` access. -/
theorem compare_eq (x y : Uint w bits) :
    equalTo x y = bitOf (x.toBitVec = y.toBitVec) ∧
    notEqualTo x y = bitOf (x.toBitVec ≠ y.toBitVec) ∧
    less x y = bitOf (x.toBitVec < y.toBitVec) ∧ lessEqual x y = bitOf (x.toBitVec ≤ y.toBitVec) ∧
    greater x y = bitOf (x.toBitVec > y.toBitVec) ∧
    greaterEqual x y = bitOf (x.toBitVec ≥ y.toBitVec) := by
  have hx := x.array.represents_span x.readable
  have hy := y.array.represents_span y.readable
  obtain ⟨hless, hlessEqual, hgreater, hgreaterEqual⟩ :=
    Num.order_storedInt x.readable y.readable
  have hsame := Num.sameDigits_iff_of_unsigned hx hy rfl rfl
  have hequal := Num.equalTo_eq_one_iff hx hy
  have hnotEqual := Num.notEqualTo_eq_zero_iff hx hy
  rw [hsame, storedInt_array, storedInt_array] at hequal hnotEqual
  rw [storedInt_array, storedInt_array] at hless hlessEqual hgreater hgreaterEqual
  have heq : (x.toBitVec.toNat : ℤ) = y.toBitVec.toNat ↔ x.toBitVec = y.toBitVec := by
    rw [Nat.cast_inj, BitVec.toNat_inj]
  refine ⟨?_, ?_, ?_, ?_, ?_, ?_⟩
  · exact Num.eq_bitOf (hequal.trans heq)
  · exact Num.eq_bitOf_not (hnotEqual.trans heq)
  · exact hless.trans (Num.bitOf_congr Nat.cast_lt)
  · exact hlessEqual.trans (Num.bitOf_congr Nat.cast_le)
  · exact hgreater.trans (Num.bitOf_congr Nat.cast_lt)
  · exact hgreaterEqual.trans (Num.bitOf_congr Nat.cast_le)

/-- **The operators of `uint`** are those of integers modulo `2 ^ bits`, for operands with any bits
above their own, and also when the operands of an assignment are one object. The source has no
products of 64-bit limbs, and those of 16-bit limbs overflow an `int` before they are cut. -/
theorem wrapsAround (memory : ℕ → BitVec w) (bits : ℕ) : WrapsAround memory bits where
  add := addFunction_computes.computes memory
  subtract := subtractFunction_computes.computes memory
  multiply := (multiplyFunction_computes memory).computes memory
  bitAnd := bitAndFunction_computes.computes memory
  bitOr := bitOrFunction_computes.computes memory
  bitXor := bitXorFunction_computes.computes memory
  negate := toBitVec_negate memory
  bitNot := toBitVec_bitNot memory
  shiftLeft x shift :=
    ⟨shiftLeftOver_computes (.apart x) (Bigint.length_uninitialized memory _) shift rfl,
      shiftLeftOver_computes .shared x.limb_size shift rfl⟩
  shiftRight x shift :=
    ⟨shiftRightOver_computes (.apart x) (Bigint.length_uninitialized memory _) shift rfl,
      shiftRightOver_computes .shared x.limb_size shift rfl⟩
  equalTo x y := (compare_eq x y).1
  notEqualTo x y := (compare_eq x y).2.1
  less x y := (compare_eq x y).2.2.1
  lessEqual x y := (compare_eq x y).2.2.2.1
  greater x y := (compare_eq x y).2.2.2.2.1
  greaterEqual x y := (compare_eq x y).2.2.2.2.2

end

/-- `x += x` in 12 bits and limbs of eight, of which four are not part of `x`. -/
def garbage : Uint 8 12 := ⟨[0xFF, 0xA3], rfl⟩

theorem addAssign_garbage : garbage.toBitVec = 0x3FF ∧
    (addAssign garbage (spanType 12).result).toBitVec = 0x7FE := by
  have hbits : garbage.toBitVec = 0x3FF := by decide
  refine ⟨hbits, ?_⟩
  rw [(wrapsAround (fun _ => 0) 12).add.aliased garbage, hbits]
  decide

/-! ## Limbs of another size -/

/-- `convert(result, value)` -/
def convert {r : ℕ} (result : Uint r bits) (value : Uint w bits) : Option (Uint r bits) :=
  (Num.convertAccesses (spanType bits) value.array.toBitSpan).map fun accesses =>
    ⟨accesses.foldl (Num.ConvertAccess.apply (spanType bits)) result.data,
      (Num.length_apply _ _ _).trans result.limb_size⟩

/-- The integer stays the same, unless limbs would have to be cut in a loop. -/
theorem toBitVec_convert {r : ℕ} [NeZero w] [NeZero r] (hdvd : r ∣ w ∨ w ∣ r) (hpos : 0 < bits)
    (result : Uint r bits) (value : Uint w bits) :
    (convert result value).map toBitVec =
      if w ≤ r ∨ bits ≤ w then some value.toBitVec else none := by
  split_ifs with h
  · obtain ⟨accesses, haccesses, hcopies⟩ :=
      Num.exists_convertAccesses (t := spanType bits) (x := value.array) rfl hpos hdvd h
    rw [convert, haccesses, Option.map_some, Option.map_some,
      toBitVec_image (hcopies.foldl_eq result.limb_size), BitVec.ofInt_natCast]
    rfl
  · obtain ⟨hlt, hmany⟩ := not_or.mp h
    rw [convert, Num.convertAccesses_none (t := spanType bits) (x := value.array) rfl hpos
      (Nat.not_le.mp hlt) (Num.dvd_of_lt hdvd (Nat.not_le.mp hlt)) (Nat.not_le.mp hmany)]
    rfl

end Uint

end Hmpc.Ints
