/-
# Hmpc.Expr.Random.NumberGenerator -- random elements from a key and an offset

A random expression that is seeded with a key makes a generator for each of its elements. The
nonce is the position of the element behind the elements of all smaller offsets, cut into words;
the counter starts at zero. As long as a size and the nonce words can hold every position, it is
the linear index of the offset and the element together, so no two elements share a nonce. Kernels
and other expressions do not matter: they choose the index, not the generator.
-/
import Hmpc.Broadcast
import Hmpc.Crypto.Engine
import Hmpc.Ints.Bigint
import Hmpc.Mdsize
import Hmpc.Random.NumberGenerator

namespace Hmpc.Expr.Random

open Hmpc.Core Hmpc.Crypto Hmpc.Crypto.ChachaType Hmpc.Ints Hmpc.Lib.Limbs Hmpc.Lib.MixedRadix
open Hmpc.Random

/-! ## The expression -/

/-- `number_generator_expression` -/
structure NumberGeneratorExpression where
  key : List Word
  offset : Size
  key_size : key.length = keySize

/-- `number_generator` -/
def numberGenerator (key : List Word) (hkey : key.length = keySize)
    (offsetIndex offsetShape : Mdsize) : Option NumberGeneratorExpression := do
  let index ← Mdsize.toLinearIndex offsetIndex offsetShape
  return ⟨key, index.value, hkey⟩

/-- `number_generator_storage`, for the shape of the elements -/
structure NumberGeneratorStorage where
  key : List Word
  shape : Mdsize
  offset : Size
  key_size : key.length = keySize

/-- `index_for` a shape -/
inductive ElementIndex
  | linear (index : Size)
  | multidimensional (index : Mdsize)

namespace NumberGeneratorStorage

variable (t : ChachaType) (memory : ℕ → Word)

/-- `number_generator_storage(rng, shape)` -/
def construct (rng : NumberGeneratorExpression) (shape : Mdsize) : NumberGeneratorStorage where
  key := Num.bitCopy (limbType 32 keySize) (BitSpan.mk (limbType 32 keySize) rng.key).span.source
    (Bigint.uninitialized memory keySize)
  shape := shape
  offset := rng.offset
  key_size := (Num.length_bitCopy _ _ _).trans (Bigint.length_uninitialized _ _)

/-- The parameters of the generator at a position. -/
def paramAt (storage : NumberGeneratorStorage) (position : Size) : t.Param where
  key := storage.key
  nonce := Num.bitCopy (limbType 32 t.nonceSize) (sizeLimbSpan 32 position).source
    (Bigint.uninitialized memory t.nonceSize)
  counter := List.replicate t.counterSize 0
  key_size := storage.key_size
  nonce_size := (Num.length_bitCopy _ _ _).trans (Bigint.length_uninitialized _ _)
  counter_size := List.length_replicate

/-- `generator(size)`: the parameters it is made with; none where an assertion fails. -/
def linearParam (storage : NumberGeneratorStorage) (index : Size) : Option t.Param := do
  let size ← storage.shape.size
  if index < size.value then
    return storage.paramAt t memory (index + size.value * storage.offset)
  else none

/-- `generator(index)` -/
def param (storage : NumberGeneratorStorage) : ElementIndex → Option t.Param
  | .linear index => storage.linearParam t memory index
  | .multidimensional index => do
      let i ← Mdsize.toLinearIndex index storage.shape
      storage.linearParam t memory i.value

/-- `operator()` of a random expression: what is drawn is up to its distribution. -/
def evaluate {V : Type} (draw : NumberGenerator → V) (storage : NumberGeneratorStorage)
    (index : ElementIndex) : Option V :=
  (storage.param t memory index).map fun param => draw (NumberGenerator.construct t param)

end NumberGeneratorStorage

/-! ## Positions of elements -/

/-- The linear index of an offset and an element, in the shape of both. -/
def position (O S o x : Mdsize) : ℕ :=
  offset (Mdsize.toShape (O ++ S)).counts (O.kept o ++ S.kept x)

/-- How an element shape is broadcast in a kernel. -/
def ExtendsTo (S T : Mdsize) : Prop :=
  S.length = 0 ∨
    List.Forall₂ (fun e e' => Mdsize.extent e = Mdsize.placeholderExtent ∨ e' = e) S T

section

variable {O S o x o' x' : Mdsize}

/-- The indices of a kernel are indices of what it evaluates. -/
theorem inRange_of_extendsTo {T y : Mdsize} (h : ExtendsTo S T) (hy : T.InRange y) :
    S.InRange y := by
  rcases h with h | h
  · exact .inl h
  · rcases hy with hT | hy
    · exact .inl (h.length_eq.trans hT)
    · refine .inr ?_
      induction h generalizing y with
      | nil =>
          cases hy
          exact .nil
      | cons he _ ih =>
          cases hy with
          | cons hvalue hy =>
              refine .cons ?_ (ih hy)
              rcases he with hp | rfl
              · exact .inl hp
              · exact hvalue

/-- A shape that has an index has no extent that fails its assertion. -/
theorem positive_of_inRange (hx : S.InRange x) : S.Positive := by
  rcases hx with hx | hx
  · obtain rfl := List.length_eq_zero_iff.mp hx
    exact fun e he => absurd he List.not_mem_nil
  · induction hx with
    | nil => exact fun e he => absurd he List.not_mem_nil
    | @cons value e x S hvalue _ ih =>
        intro d hd hdynamic
        rcases List.mem_cons.mp hd with rfl | hd
        · rcases hvalue with hp | hlt
          · rw [(Mdsize.placeholder_isConstant hp).1] at hdynamic
            cases hdynamic
          · exact (Nat.zero_le _).trans_lt hlt
        · exact ih d hd hdynamic

theorem counts_append (O S : Mdsize) :
    (Mdsize.toShape (O ++ S)).counts = O.toShape.counts ++ S.toShape.counts := by
  rw [Mdsize.toShape, List.map_append, Shape.counts, List.map_append]
  rfl

theorem inRange_append (ho : O.InRange o) (hx : S.InRange x) :
    InRange (Mdsize.toShape (O ++ S)).counts (O.kept o ++ S.kept x) := by
  rw [counts_append]
  exact List.rel_append (Mdsize.inRange_kept ho) (Mdsize.inRange_kept hx)

theorem position_eq (ho : O.InRange o) :
    position O S o x = offset O.toShape.counts (O.kept o) * S.toShape.counts.prod +
      offset S.toShape.counts (S.kept x) := by
  rw [position, counts_append, offset_append (Mdsize.inRange_kept ho).length_eq]

theorem position_lt (ho : O.InRange o) (hx : S.InRange x) :
    position O S o x < S.toShape.size * O.toShape.size := by
  have hlt := offset_lt (inRange_append ho hx)
  rw [counts_append, List.prod_append, Nat.mul_comm, ← Shape.size_eq, ← Shape.size_eq] at hlt
  rwa [position, counts_append]

theorem position_injective (ho : O.InRange o) (hx : S.InRange x) (ho' : O.InRange o')
    (hx' : S.InRange x') (h : position O S o x = position O S o' x') :
    O.kept o = O.kept o' ∧ S.kept x = S.kept x' := by
  have hcoordinates := congrArg (coordinates (Mdsize.toShape (O ++ S)).counts) h
  rw [position, position, coordinates_offset (inRange_append ho hx),
    coordinates_offset (inRange_append ho' hx')] at hcoordinates
  exact List.append_inj hcoordinates
    ((Mdsize.inRange_kept ho).length_eq.trans (Mdsize.inRange_kept ho').length_eq.symm)

/-- `to_linear_index` of both indices in both shapes computes it. -/
theorem toLinearIndex_append (ho : O.InRange o) (hx : S.InRange x) (hO : o.length = O.length)
    (hS : x.length = S.length) :
    ∃ l, Mdsize.toLinearIndex (o ++ x) (O ++ S) = some l ∧
      l.value = BitVec.ofNat 64 (position O S o x) := by
  have hforall {s index : Mdsize} (h : s.InRange index) (hlen : index.length = s.length) :
      List.Forall₂ (fun value e => Mdsize.extent e = Mdsize.placeholderExtent ∨
        value.value < e.value) index s := by
    rcases h with h | h
    · obtain rfl := List.length_eq_zero_iff.mp h
      obtain rfl := List.length_eq_zero_iff.mp hlen
      exact .nil
    · exact h
  have hkept : Mdsize.kept (O ++ S) (o ++ x) = O.kept o ++ S.kept x := List.zipWith_append hO.symm
  have hin : Mdsize.InRange (O ++ S) (o ++ x) :=
    .inr (List.rel_append (hforall ho hO) (hforall hx hS))
  have h := Mdsize.toLinearIndex_eq hin
  rwa [hkept] at h

end

/-! ## Nonces -/

namespace NumberGeneratorStorage

variable {t : ChachaType} {memory : ℕ → Word}

theorem key_construct (rng : NumberGeneratorExpression) (shape : Mdsize) :
    (construct memory rng shape).key = rng.key := by
  have hcopy : (construct memory rng shape).key = ofValue keySize (value rng.key) :=
    bitCopy_limbs (Bigint.length_uninitialized _ _) (limbSpan_reads _ _)
  rw [hcopy, ← rng.key_size, ofValue_value]

theorem nonce_paramAt (storage : NumberGeneratorStorage) (position : Size) :
    (storage.paramAt t memory position).nonce = ofValue t.nonceSize position.toNat :=
  bitCopy_limbs (Bigint.length_uninitialized _ _) ((sizeLimbSpan_denotes position).reads _ _)

/-- The words that a size does not reach are zero. -/
theorem drop_ofValue_size (n : ℕ) (v : Size) :
    (ofValue n v.toNat : List Word).drop 2 = List.replicate (n - 2) 0 := by
  apply value_injective
  · rw [List.length_drop, length_ofValue, List.length_replicate]
  · have hlt : v.toNat % (2 ^ 32) ^ n < (2 ^ 32) ^ 2 := (Nat.mod_le _ _).trans_lt v.isLt
    rw [value_drop, value_ofValue, Nat.div_eq_of_lt hlt]
    exact (value_replicate_zero _).symm

/-- An element of the shape has a generator at its position. -/
theorem linearParam_eq (t : ChachaType) (memory : ℕ → Word) (storage : NumberGeneratorStorage)
    (hS : storage.shape.Positive) (hlt : storage.shape.toShape.size < 2 ^ 64) {k : ℕ}
    (hk : k < storage.shape.toShape.size) :
    storage.linearParam t memory (.ofNat 64 k) = some (storage.paramAt t memory
      (.ofNat 64 k + .ofNat 64 storage.shape.toShape.size * storage.offset)) := by
  rw [Shape.size_eq] at hlt hk ⊢
  obtain ⟨size, hsize, hvalue⟩ := Mdsize.size_eq hS
  have hbound : BitVec.ofNat 64 k < BitVec.ofNat 64 storage.shape.toShape.counts.prod := by
    rw [BitVec.lt_def, BitVec.toNat_ofNat, BitVec.toNat_ofNat, Nat.mod_eq_of_lt hlt,
      Nat.mod_eq_of_lt (hk.trans hlt)]
    exact hk
  rw [linearParam, hsize, Option.bind_eq_bind, Option.bind_some, hvalue, if_pos hbound]
  rfl

end NumberGeneratorStorage

open NumberGeneratorStorage

section

variable {t : ChachaType} {memory : ℕ → Word} {key : List Word} {hkey : key.length = keySize}
  {O S o x : Mdsize} {rng : NumberGeneratorExpression}

/-- What an element is evaluated with. -/
theorem param_eq (t : ChachaType) (memory : ℕ → Word) (hS : S.Positive)
    (hlt : S.toShape.size < 2 ^ 64) (ho : O.InRange o) (hx : S.InRange x)
    (hrng : numberGenerator key hkey o O = some rng) :
    (construct memory rng S).param t memory (.multidimensional x) =
      some ((construct memory rng S).paramAt t memory (.ofNat 64 (position O S o x))) := by
  obtain ⟨index, hindex, hoffset⟩ := Mdsize.toLinearIndex_eq ho
  obtain ⟨i, hi, hvalue⟩ := Mdsize.toLinearIndex_eq hx
  rw [numberGenerator, hindex, Option.bind_eq_bind, Option.bind_some] at hrng
  obtain rfl := Option.some.inj hrng
  have hk := offset_lt (Mdsize.inRange_kept hx)
  rw [← Shape.size_eq] at hk
  have hparam := linearParam_eq t memory (construct memory ⟨key, index.value, hkey⟩ S) hS hlt hk
  have hposition : BitVec.ofNat 64 (offset S.toShape.counts (S.kept x)) +
      BitVec.ofNat 64 S.toShape.size * index.value = BitVec.ofNat 64 (position O S o x) := by
    rw [position_eq ho, hoffset, Shape.size_eq, ← BitVec.ofNat_mul, ← BitVec.ofNat_add,
      Nat.mul_comm, Nat.add_comm]
  rw [NumberGeneratorStorage.param]
  show (Mdsize.toLinearIndex x S).bind _ = _
  rw [hi, Option.bind_some, hvalue, hparam]
  exact congrArg (fun p => some (NumberGeneratorStorage.paramAt t memory _ p)) hposition

/-- Engines with different nonces are never in the same state. -/
theorem state_ne {param param' : t.Param} (h : param.nonce ≠ param'.nonce) (j k : ℕ) :
    ((Chacha.construct param).after j).state ≠ ((Chacha.construct param').after k).state := by
  have hstate (param : t.Param) (j : ℕ) : ((Chacha.construct param).after j).state =
      t.stateAt param.key param.nonce (param.count + j) := by
    rw [Chacha.after_eq, Chacha.param_construct]
    exact Param.construct_withCounter param _
  rw [hstate, hstate]
  intro heq
  exact h (List.append_inj_right' heq (param.nonce_size.trans param'.nonce_size.symm))

/-- What the nonce of an element is. -/
structure OneNonce (key : List Word) (O S o x : Mdsize) (param : t.Param) :
    Prop where
  key_eq : param.key = key
  nonce : value param.nonce = position O S o x
  drop_nonce : param.nonce.drop 2 = List.replicate (t.nonceSize - 2) 0
  linear : o.length = O.length → x.length = S.length →
    ∃ l, Mdsize.toLinearIndex (o ++ x) (O ++ S) = some l ∧ l.value.toNat = value param.nonce

theorem size_lt (hsize : S.toShape.size * O.toShape.size < 2 ^ 64) (ho : O.InRange o) :
    S.toShape.size < 2 ^ 64 := by
  have hpos : 0 < O.toShape.size := by
    rw [Shape.size_eq]
    exact (Nat.zero_le _).trans_lt (offset_lt (Mdsize.inRange_kept ho))
  exact (Nat.le_mul_of_pos_right _ hpos).trans_lt hsize

theorem oneNonce_paramAt (memory : ℕ → Word) (hsize : S.toShape.size * O.toShape.size < 2 ^ 64)
    (hnonce : S.toShape.size * O.toShape.size < 2 ^ (32 * t.nonceSize)) (ho : O.InRange o)
    (hx : S.InRange x) (hrng : numberGenerator key hkey o O = some rng) :
    OneNonce key O S o x
      ((construct memory rng S).paramAt t memory (.ofNat 64 (position O S o x))) := by
  have hlt := position_lt ho hx
  have hvalue : (BitVec.ofNat 64 (position O S o x)).toNat = position O S o x := by
    rw [BitVec.toNat_ofNat, Nat.mod_eq_of_lt (hlt.trans hsize)]
  have hnonceValue : value ((construct memory rng S).paramAt t memory
      (.ofNat 64 (position O S o x))).nonce = position O S o x := by
    rw [nonce_paramAt, hvalue]
    apply value_ofValue_of_lt
    rw [← pow_mul]
    exact hlt.trans hnonce
  refine ⟨?_, hnonceValue, ?_, fun hO hS => ?_⟩
  · obtain ⟨index, -, hindex⟩ := Option.bind_eq_some_iff.mp hrng
    obtain rfl := Option.some.inj hindex
    exact key_construct _ S
  · rw [nonce_paramAt]
    exact drop_ofValue_size _ _
  · obtain ⟨l, hl, hposition⟩ := toLinearIndex_append ho hx hO hS
    exact ⟨l, hl, by rw [hnonceValue, hposition, hvalue]⟩

end

/-- **One nonce for each element.** The generator of an element has its linear index, behind the
offset, as its nonce. Different elements have different nonces, so their engines are never in the
same state; and a kernel gets the same value wherever and however it evaluates the element. -/
theorem oneNoncePerElement (t : ChachaType) (memory : ℕ → Word) (key : List Word)
    (hkey : key.length = keySize) (O S : Mdsize)
    (hsize : S.toShape.size * O.toShape.size < 2 ^ 64)
    (hnonce : S.toShape.size * O.toShape.size < 2 ^ (32 * t.nonceSize)) :
    (∀ o x, O.InRange o → S.InRange x → ∃ rng param, numberGenerator key hkey o O = some rng ∧
      (construct memory rng S).param t memory (.multidimensional x) = some param ∧
      OneNonce key O S o x param) ∧
    (∀ o o' x x' rng rng' param param', O.InRange o → O.InRange o' → S.InRange x →
      S.InRange x' → (O.kept o, S.kept x) ≠ (O.kept o', S.kept x') →
      numberGenerator key hkey o O = some rng → numberGenerator key hkey o' O = some rng' →
      (construct memory rng S).param t memory (.multidimensional x) = some param →
      (construct memory rng' S).param t memory (.multidimensional x') = some param' →
      param.nonce ≠ param'.nonce ∧ ∀ j k, ((Chacha.construct param).after j).state ≠
        ((Chacha.construct param').after k).state) ∧
    ∀ o rng, O.InRange o → numberGenerator key hkey o O = some rng →
      ∀ T T' y y', ExtendsTo S T → ExtendsTo S T' → T.InRange y → T'.InRange y' →
        S.kept y = S.kept y' → ∀ (V : Type) (draw : NumberGenerator → V), ∃ l v,
          Mdsize.toLinearIndex y S = some l ∧
          (construct memory rng S).evaluate t memory draw (.linear l.value) = some v ∧
          (construct memory rng S).evaluate t memory draw (.multidimensional y) = some v ∧
          (construct memory rng S).evaluate t memory draw (.multidimensional y') = some v := by
  refine ⟨?_, ?_, ?_⟩
  · intro o x ho hx
    obtain ⟨index, hindex, -⟩ := Mdsize.toLinearIndex_eq ho
    have hrng : numberGenerator key hkey o O = some ⟨key, index.value, hkey⟩ := by
      rw [numberGenerator, hindex]
      rfl
    exact ⟨_, _, hrng, param_eq t memory (positive_of_inRange hx) (size_lt hsize ho) ho hx hrng,
      oneNonce_paramAt memory hsize hnonce ho hx hrng⟩
  · intro o o' x x' rng rng' param param' ho ho' hx hx' hne hrng hrng' hparam hparam'
    rw [param_eq t memory (positive_of_inRange hx) (size_lt hsize ho) ho hx hrng] at hparam
    rw [param_eq t memory (positive_of_inRange hx') (size_lt hsize ho') ho' hx' hrng'] at hparam'
    have h := oneNonce_paramAt memory hsize hnonce ho hx hrng
    have h' := oneNonce_paramAt memory hsize hnonce ho' hx' hrng'
    rw [Option.some.inj hparam] at h
    rw [Option.some.inj hparam'] at h'
    have hnonces : param.nonce ≠ param'.nonce := by
      intro heq
      have hposition := congrArg value heq
      rw [h.nonce, h'.nonce] at hposition
      obtain ⟨hO, hS⟩ := position_injective ho hx ho' hx' hposition
      exact hne (Prod.ext hO hS)
    exact ⟨hnonces, state_ne hnonces⟩
  · intro o rng ho hrng T T' y y' hT hT' hy hy' hkept V draw
    have hx := inRange_of_extendsTo hT hy
    have hx' := inRange_of_extendsTo hT' hy'
    have hparam := param_eq t memory (positive_of_inRange hx) (size_lt hsize ho) ho hx hrng
    have hparam' := param_eq t memory (positive_of_inRange hx') (size_lt hsize ho) ho hx' hrng
    have hposition : position O S o y = position O S o y' := by
      rw [position_eq ho, position_eq ho, hkept]
    obtain ⟨l, hl, -⟩ := Mdsize.toLinearIndex_eq hx
    -- evaluation at an index with coordinates is that at its linear index
    have hlinear : (construct memory rng S).param t memory (.linear l.value) =
        (construct memory rng S).param t memory (.multidimensional y) := by
      show _ = (Mdsize.toLinearIndex y S).bind _
      rw [hl]
      rfl
    refine ⟨l, draw (.construct t ((construct memory rng S).paramAt t memory
      (.ofNat 64 (position O S o y)))), hl, ?_, ?_, ?_⟩
    · rw [evaluate, hlinear, hparam, Option.map_some]
    · rw [evaluate, hparam, Option.map_some]
    · rw [evaluate, hparam', Option.map_some, hposition]

/-- The fourth of eleven elements, at the second of two offsets. -/
theorem oneNoncePerElement_fourth :
    ∃ rng param, numberGenerator (List.replicate 8 7) rfl [.constant 1] [.constant 2] = some rng ∧
      (construct (fun _ => 0) rng [.constant 11]).param chacha20 (fun _ => 0)
        (.multidimensional [.runtime 3]) = some param ∧
      OneNonce (List.replicate 8 7) [.constant 2] [.constant 11] [.constant 1] [.runtime 3] param :=
  (oneNoncePerElement chacha20 (fun _ => 0) (List.replicate 8 7) rfl [.constant 2] [.constant 11]
    (by decide) (by decide)).1 [.constant 1] [.runtime 3]
    (.inr (.cons (.inr (by decide)) .nil)) (.inr (.cons (.inr (by decide)) .nil))

end Hmpc.Expr.Random
