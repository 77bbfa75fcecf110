/-
# Hmpc.Expr.Reduction -- reductions of tensors

A reduction hands a function object of SYCL and its identity to the device, which combines the
elements in any order and in as many partial results as it likes. Function objects and device are
not of this program: `Sycl.Documented` is what their documentation says. Which reductions compile
depends on what the type of the elements has of `integer_traits` and of operators. Those that do
have one result (`reduction_any_order`): the limbs of `uint` may differ above its bits, everything
else is the same.
-/
import Hmpc.Expr.Syntax
import Hmpc.Ints.PrimitiveRoot
import Hmpc.Ints.Uint
import Hmpc.Lib.Grouping

namespace Hmpc.Expr.Detail

open Hmpc.Core Hmpc.Ints Hmpc.Lib Hmpc.Lib.Limbs

variable {α β : Type} {w : ℕ}

/-! ## Operations and identities -/

/-- What a type has of `integer_traits`, and the operators that function objects call. -/
structure ElementType (α : Type) where
  zero : Option α := none
  one : Option α := none
  allZeros : Option α := none
  allOnes : Option α := none
  min : Option α := none
  max : Option α := none
  /-- `hmpc::bit` is constructed from truth values. -/
  ofBool : Option (Bool → α) := none
  plus : Option (α → α → α) := none
  multiplies : Option (α → α → α) := none
  logicalAnd : Option (α → α → α) := none
  logicalOr : Option (α → α → α) := none
  bitAnd : Option (α → α → α) := none
  bitOr : Option (α → α → α) := none
  bitXor : Option (α → α → α) := none
  less : Option (α → α → Bit) := none
  greater : Option (α → α → Bit) := none

/-- What is used of SYCL: the function objects that compile for a type of elements, and what a
kernel with a `sycl::reduction` leaves. -/
structure Sycl (α : Type) where
  plus : Option (α → α → α)
  multiplies : Option (α → α → α)
  logicalAnd : Option (α → α → α)
  logicalOr : Option (α → α → α)
  bitAnd : Option (α → α → α)
  bitOr : Option (α → α → α)
  bitXor : Option (α → α → α)
  minimum : Option (α → α → α)
  maximum : Option (α → α → α)
  /-- With `initialize_to_identity`: of the identity, the operation, and what the work items
  combine. -/
  reduction : α → (α → α → α) → List α → α

/-- One of two operands is returned, and the other one does not come before it. -/
def Selects (before : α → α → Bit) (f : α → α → α) : Prop :=
  ∀ x y, f x y = x ∧ before y x ≠ 1 ∨ f x y = y ∧ before x y ≠ 1

/-- What the documentation of SYCL says. The function objects call the operators of the type, and
the elements are combined, each once, in any groups. -/
structure Sycl.Documented (sycl : Sycl α) (type : ElementType α) : Prop where
  plus : sycl.plus = type.plus
  multiplies : sycl.multiplies = type.multiplies
  logicalAnd : sycl.logicalAnd = type.logicalAnd
  logicalOr : sycl.logicalOr = type.logicalOr
  bitAnd : sycl.bitAnd = type.bitAnd
  bitOr : sycl.bitOr = type.bitOr
  bitXor : sycl.bitXor = type.bitXor
  minimum (f : α → α → α) (h : sycl.minimum = some f) :
    ∃ less, type.less = some less ∧ Selects less f
  maximum (f : α → α → α) (h : sycl.maximum = some f) :
    ∃ greater, type.greater = some greater ∧ Selects greater f
  reduction (identity : α) (combine : α → α → α) (elements : List α) :
    ∃ t : Grouping α, t.values.Perm elements ∧
      sycl.reduction identity combine elements = t.eval combine identity

/-- `reduction_type` -/
def Sycl.reductionType (sycl : Sycl α) : Reduction → Option (α → α → α)
  | .add => sycl.plus
  | .multiply => sycl.multiplies
  | .logicalAnd => sycl.logicalAnd
  | .logicalOr => sycl.logicalOr
  | .bitAnd => sycl.bitAnd
  | .bitOr => sycl.bitOr
  | .bitXor => sycl.bitXor
  | .min => sycl.minimum
  | .max => sycl.maximum

/-- What the device gets. -/
structure Reducer (α : Type) where
  combine : α → α → α
  identity : α

namespace ElementType

variable (type : ElementType α)

/-- `reduction_identity` -/
def reductionIdentity : Reduction → Option α
  | .add => type.zero
  | .multiply => type.one
  | .logicalAnd => type.ofBool.map fun ofBool => ofBool true
  | .logicalOr => type.ofBool.map fun ofBool => ofBool false
  | .bitAnd => type.allOnes
  | .bitOr => type.allZeros
  | .bitXor => type.allZeros
  | .min => type.max
  | .max => type.min

/-- The arguments of `sycl::reduction`; there are none when something of them does not compile. -/
def reducer (sycl : Sycl α) (operation : Reduction) : Option (Reducer α) := do
  let combine ← sycl.reductionType operation
  let identity ← type.reductionIdentity operation
  return ⟨combine, identity⟩

/-- `reduction_expression::operator()`, of the elements of the inner expression. -/
def reduce (sycl : Sycl α) (operation : Reduction) (elements : List α) : Option α :=
  (type.reducer sycl operation).map fun r => sycl.reduction r.identity r.combine elements

/-- `integer_traits<core::uint<Underlying>>` -/
def limb (w : ℕ) : ElementType (BitVec w) where
  zero := some 0#w
  one := some 1#w
  allZeros := some 0#w
  allOnes := some (~~~0#w)
  min := some 0#w
  max := some (~~~0#w)
  plus := some (· + ·)
  multiplies := some (· * ·)
  bitAnd := some (· &&& ·)
  bitOr := some (· ||| ·)
  bitXor := some (· ^^^ ·)
  less := some fun x y => bitOf (x < y)
  greater := some fun x y => bitOf (x > y)

/-- `core::uint<bool>` has operators of its own. -/
def bit : ElementType Bit :=
  { limb 1 with
    ofBool := some BitVec.ofBool
    plus := some (· ^^^ ·)
    multiplies := some (· &&& ·)
    logicalAnd := some (· &&& ·)
    logicalOr := some (· ||| ·) }

/-- `integer_traits<uint<Bits, Limb>>::zero` -/
def uintZero (w bits : ℕ) : Uint w bits :=
  ⟨List.replicate (limbSizeFor w bits) 0#w, List.length_replicate⟩

/-- `integer_traits<uint<Bits, Limb>>::one` -/
def uintOne (w bits : ℕ) : Uint w bits :=
  ⟨(List.replicate (limbSizeFor w bits) 0#w).set 0 1#w,
    List.length_set.trans List.length_replicate⟩

/-- `integer_traits<uint<Bits, Limb>>` -/
def uint (memory : ℕ → BitVec w) (bits : ℕ) : ElementType (Uint w bits) where
  zero := some (uintZero w bits)
  one := some (uintOne w bits)
  allZeros := some (uintZero w bits)
  allOnes := some (Uint.bitNot memory (uintZero w bits))
  min := some (uintZero w bits)
  max := some (Uint.bitNot memory (uintZero w bits))
  plus := some (Uint.add memory)
  multiplies := some (Uint.multiply memory)
  bitAnd := some (Uint.bitAnd memory)
  bitOr := some (Uint.bitOr memory)
  bitXor := some (Uint.bitXor memory)
  less := some Uint.less
  greater := some Uint.greater

/-- `integer_traits<mod<Modulus>>` -/
def mod (memory : ℕ → BitVec w) (N : Modulus) : ElementType (Mod w N) where
  zero := some (Mod.traitsZero w N)
  one := Mod.traitsOne memory N
  plus := some (Mod.add memory)
  multiplies := some (Mod.multiply memory)

end ElementType

/-! ## What they mean -/

/-- Of every grouping of valid elements, the result is valid and has the value that their values
have together. -/
def Reducer.Computes (r : Reducer α) (Valid : α → Prop) (value : α → β)
    (meaning : Multiset β → β) : Prop :=
  ∀ t : Grouping α, (∀ a ∈ t.values, Valid a) → Valid (t.eval r.combine r.identity) ∧
    value (t.eval r.combine r.identity) = meaning ((t.values : Multiset α).map value)

theorem Reducer.computes {r : Reducer α} {Valid : α → Prop} {value : α → β} (op : β → β → β)
    (e : β) [Std.Commutative op] [Std.Associative op] [Std.LawfulIdentity op e]
    (he : Valid r.identity ∧ value r.identity = e)
    (hop : ∀ a b, Valid a → Valid b →
      Valid (r.combine a b) ∧ value (r.combine a b) = op (value a) (value b)) :
    r.Computes Valid value fun s => s.fold op e :=
  fun t => t.eval_eq_fold op e he hop

/-- What a function object of an operation does, in operators of the type. -/
def ElementType.Applies (type : ElementType α) : Reduction → (α → α → α) → Prop
  | .add, f => type.plus = some f
  | .multiply, f => type.multiplies = some f
  | .logicalAnd, f => type.logicalAnd = some f
  | .logicalOr, f => type.logicalOr = some f
  | .bitAnd, f => type.bitAnd = some f
  | .bitOr, f => type.bitOr = some f
  | .bitXor, f => type.bitXor = some f
  | .min, f => ∃ less, type.less = some less ∧ Selects less f
  | .max, f => ∃ greater, type.greater = some greater ∧ Selects greater f

section

variable {type : ElementType α} {sycl : Sycl α} (hsycl : sycl.Documented type)
include hsycl

theorem Sycl.Documented.applies {operation : Reduction} {f : α → α → α}
    (h : sycl.reductionType operation = some f) : type.Applies operation f := by
  cases operation with
  | add => exact hsycl.plus.symm.trans h
  | multiply => exact hsycl.multiplies.symm.trans h
  | logicalAnd => exact hsycl.logicalAnd.symm.trans h
  | logicalOr => exact hsycl.logicalOr.symm.trans h
  | bitAnd => exact hsycl.bitAnd.symm.trans h
  | bitOr => exact hsycl.bitOr.symm.trans h
  | bitXor => exact hsycl.bitXor.symm.trans h
  | min => exact hsycl.minimum f h
  | max => exact hsycl.maximum f h

theorem ElementType.reducer_eq_some {operation : Reduction} {r : Reducer α}
    (h : type.reducer sycl operation = some r) :
    type.Applies operation r.combine ∧ type.reductionIdentity operation = some r.identity := by
  obtain ⟨combine, hcombine, h⟩ := Option.bind_eq_some_iff.mp h
  obtain ⟨identity, hidentity, h⟩ := Option.bind_eq_some_iff.mp h
  obtain rfl := Option.some.inj h
  exact ⟨hsycl.applies hcombine, hidentity⟩

end

/-- Of every list of valid elements, the result is valid and has the value that their values have
together. -/
def ElementType.Reduces (type : ElementType α) (sycl : Sycl α) (operation : Reduction)
    (Valid : α → Prop) (value : α → β) (meaning : Multiset β → β) : Prop :=
  ∀ elements result, type.reduce sycl operation elements = some result →
    (∀ a ∈ elements, Valid a) →
      Valid result ∧ value result = meaning ((elements : Multiset α).map value)

/-- The device combines the elements in one of the ways that do not matter. -/
theorem Sycl.Documented.reduces {type : ElementType α} {sycl : Sycl α}
    (hsycl : sycl.Documented type) {operation : Reduction} {Valid : α → Prop} {value : α → β}
    {meaning : Multiset β → β} (h : ∀ r : Reducer α, type.Applies operation r.combine →
      type.reductionIdentity operation = some r.identity → r.Computes Valid value meaning) :
    type.Reduces sycl operation Valid value meaning := by
  intro elements result hresult hvalid
  obtain ⟨r, hr, rfl⟩ := Option.map_eq_some_iff.mp hresult
  obtain ⟨hcombine, hidentity⟩ := ElementType.reducer_eq_some hsycl hr
  obtain ⟨t, hperm, heval⟩ := hsycl.reduction r.identity r.combine elements
  have hcomputes := h r hcombine hidentity t fun a ha => hvalid a (hperm.mem_iff.mp ha)
  rwa [heval, ← Multiset.coe_eq_coe.mpr hperm]

section

variable {bits : ℕ}

def least (x y : BitVec bits) : BitVec bits := if x < y then x else y

def greatest (x y : BitVec bits) : BitVec bits := if x > y then x else y

theorem toNat_least (x y : BitVec bits) : (least x y).toNat = min x.toNat y.toNat := by
  unfold least
  split_ifs with h <;> rw [BitVec.lt_def] at h <;> omega

theorem toNat_greatest (x y : BitVec bits) : (greatest x y).toNat = max x.toNat y.toNat := by
  unfold greatest
  split_ifs with h <;> rw [gt_iff_lt, BitVec.lt_def] at h <;> omega

/-- What is selected with the order of the numbers. -/
theorem Selects.least {before : α → α → Bit} {f : α → α → α} (h : Selects before f)
    {value : α → BitVec bits} (hbefore : ∀ x y, before x y = 1 ↔ value x < value y) (x y : α) :
    value (f x y) = least (value x) (value y) := by
  apply BitVec.eq_of_toNat_eq
  rw [toNat_least]
  rcases h x y with ⟨heq, hnot⟩ | ⟨heq, hnot⟩ <;>
  · rw [Ne, hbefore, BitVec.lt_def] at hnot
    rw [heq]
    omega

theorem Selects.greatest {before : α → α → Bit} {f : α → α → α} (h : Selects before f)
    {value : α → BitVec bits} (hbefore : ∀ x y, before x y = 1 ↔ value x > value y) (x y : α) :
    value (f x y) = greatest (value x) (value y) := by
  apply BitVec.eq_of_toNat_eq
  rw [toNat_greatest]
  rcases h x y with ⟨heq, hnot⟩ | ⟨heq, hnot⟩ <;>
  · rw [Ne, hbefore, gt_iff_lt, BitVec.lt_def] at hnot
    rw [heq]
    omega

instance commutativeLeast : Std.Commutative (least : BitVec bits → BitVec bits → BitVec bits) :=
  ⟨fun x y => BitVec.eq_of_toNat_eq (by rw [toNat_least, toNat_least, min_comm])⟩

instance associativeLeast : Std.Associative (least : BitVec bits → BitVec bits → BitVec bits) :=
  ⟨fun x y z => BitVec.eq_of_toNat_eq (by simp only [toNat_least, min_assoc])⟩

instance lawfulLeast : Std.LawfulIdentity (least : BitVec bits → BitVec bits → BitVec bits)
    (BitVec.allOnes bits) where
  left_id x := BitVec.eq_of_toNat_eq (by rw [toNat_least, BitVec.toNat_allOnes]; omega)
  right_id x := BitVec.eq_of_toNat_eq (by rw [toNat_least, BitVec.toNat_allOnes]; omega)

instance commutativeGreatest :
    Std.Commutative (greatest : BitVec bits → BitVec bits → BitVec bits) :=
  ⟨fun x y => BitVec.eq_of_toNat_eq (by rw [toNat_greatest, toNat_greatest, max_comm])⟩

instance associativeGreatest :
    Std.Associative (greatest : BitVec bits → BitVec bits → BitVec bits) :=
  ⟨fun x y z => BitVec.eq_of_toNat_eq (by simp only [toNat_greatest, max_assoc])⟩

instance lawfulGreatest : Std.LawfulIdentity (greatest : BitVec bits → BitVec bits → BitVec bits)
    (BitVec.ofNat bits 0) where
  left_id x := BitVec.eq_of_toNat_eq (by rw [toNat_greatest, BitVec.toNat_zero]; omega)
  right_id x := BitVec.eq_of_toNat_eq (by rw [toNat_greatest, BitVec.toNat_zero]; omega)

/-- What a reduction of integers modulo `2 ^ bits` means. -/
def integers : Reduction → Multiset (BitVec bits) → BitVec bits
  | .add, s => s.fold (· + ·) (BitVec.ofNat bits 0)
  | .multiply, s => s.fold (· * ·) (BitVec.ofNat bits 1)
  | .logicalAnd, s => s.fold (· &&& ·) (BitVec.allOnes bits)
  | .logicalOr, s => s.fold (· ||| ·) (BitVec.ofNat bits 0)
  | .bitAnd, s => s.fold (· &&& ·) (BitVec.allOnes bits)
  | .bitOr, s => s.fold (· ||| ·) (BitVec.ofNat bits 0)
  | .bitXor, s => s.fold (· ^^^ ·) (BitVec.ofNat bits 0)
  | .min, s => s.fold least (BitVec.allOnes bits)
  | .max, s => s.fold greatest (BitVec.ofNat bits 0)

end

/-- What a reduction of residues means; no others compile. -/
def residues {n : ℕ} : Reduction → Multiset (ZMod n) → ZMod n
  | .add, s => s.fold (· + ·) 0
  | _, s => s.fold (· * ·) 1

/-! ## A device with one work item -/

theorem selects_ite {before : α → α → Bit} (h : ∀ x y, before x y = 1 → before y x ≠ 1) :
    Selects before fun x y => if before x y = 1 then x else y := by
  intro x y
  by_cases hxy : before x y = 1
  · exact Or.inl ⟨if_pos hxy, h x y hxy⟩
  · exact Or.inr ⟨if_neg hxy, hxy⟩

/-- Function objects that call the operators, and one partial result. -/
def Sycl.sequential (type : ElementType α) : Sycl α where
  plus := type.plus
  multiplies := type.multiplies
  logicalAnd := type.logicalAnd
  logicalOr := type.logicalOr
  bitAnd := type.bitAnd
  bitOr := type.bitOr
  bitXor := type.bitXor
  minimum := type.less.map fun less x y => if less x y = 1 then x else y
  maximum := type.greater.map fun greater x y => if greater x y = 1 then x else y
  reduction identity combine elements := (Grouping.ofList elements).eval combine identity

/-- It is as documented when elements are compared as numbers. -/
theorem Sycl.sequential_documented {type : ElementType α} {bits : ℕ} (value : α → BitVec bits)
    (hless : ∀ less, type.less = some less → ∀ x y, less x y = 1 ↔ value x < value y)
    (hgreater : ∀ greater, type.greater = some greater →
      ∀ x y, greater x y = 1 ↔ value x > value y) :
    (Sycl.sequential type).Documented type where
  plus := rfl
  multiplies := rfl
  logicalAnd := rfl
  logicalOr := rfl
  bitAnd := rfl
  bitOr := rfl
  bitXor := rfl
  minimum f h := by
    obtain ⟨less, htype, rfl⟩ := Option.map_eq_some_iff.mp h
    refine ⟨less, htype, selects_ite fun x y => ?_⟩
    rw [Ne, hless less htype, hless less htype, BitVec.lt_def, BitVec.lt_def]
    omega
  maximum f h := by
    obtain ⟨greater, htype, rfl⟩ := Option.map_eq_some_iff.mp h
    refine ⟨greater, htype, selects_ite fun x y => ?_⟩
    rw [Ne, hgreater greater htype, hgreater greater htype, gt_iff_lt, gt_iff_lt, BitVec.lt_def,
      BitVec.lt_def]
    omega
  reduction identity combine elements :=
    ⟨Grouping.ofList elements, .of_eq (Grouping.values_ofList elements), rfl⟩

namespace ElementType

theorem limb_documented : (Sycl.sequential (limb w)).Documented (limb w) := by
  apply Sycl.sequential_documented id
  · rintro _ ⟨⟩ x y
    exact bitOf_eq_one_iff
  · rintro _ ⟨⟩ x y
    exact bitOf_eq_one_iff

theorem bit_documented : (Sycl.sequential bit).Documented bit := by
  apply Sycl.sequential_documented id
  · rintro _ ⟨⟩ x y
    exact bitOf_eq_one_iff
  · rintro _ ⟨⟩ x y
    exact bitOf_eq_one_iff

theorem uint_documented [NeZero w] (memory : ℕ → BitVec w) (bits : ℕ) :
    (Sycl.sequential (uint memory bits)).Documented (uint memory bits) := by
  apply Sycl.sequential_documented Uint.toBitVec
  · rintro _ ⟨⟩ x y
    rw [(Uint.compare_eq x y).2.2.1, bitOf_eq_one_iff]
  · rintro _ ⟨⟩ x y
    rw [(Uint.compare_eq x y).2.2.2.2.1, bitOf_eq_one_iff]

theorem mod_documented (memory : ℕ → BitVec w) (N : Modulus) :
    (Sycl.sequential (mod memory N)).Documented (mod memory N) :=
  Sycl.sequential_documented (fun _ => 0#0) nofun nofun

end ElementType

/-! ## The reductions of each type -/

namespace ElementType

section

variable {bits : ℕ}

theorem limb_computes {operation : Reduction} {r : Reducer (BitVec w)}
    (hcombine : (limb w).Applies operation r.combine)
    (hidentity : (limb w).reductionIdentity operation = some r.identity) :
    r.Computes (fun _ => True) id (integers operation) := by
  obtain ⟨combine, identity⟩ := r
  have hones : ~~~0#w = BitVec.allOnes w := BitVec.not_zero
  cases operation with
  | logicalAnd | logicalOr => cases hcombine
  | add | multiply | bitOr | bitXor =>
      obtain rfl := Option.some.inj hcombine
      obtain rfl := Option.some.inj hidentity
      exact Reducer.computes _ _ ⟨trivial, rfl⟩ fun a b _ _ => ⟨trivial, rfl⟩
  | bitAnd =>
      obtain rfl := Option.some.inj hcombine
      obtain rfl := Option.some.inj hidentity
      exact Reducer.computes _ _ ⟨trivial, hones⟩ fun a b _ _ => ⟨trivial, rfl⟩
  | min =>
      obtain ⟨less, hless, hselects⟩ := hcombine
      obtain rfl := Option.some.inj hless
      obtain rfl := Option.some.inj hidentity
      exact Reducer.computes least _ ⟨trivial, hones⟩ fun a b _ _ =>
        ⟨trivial, hselects.least (fun _ _ => bitOf_eq_one_iff) a b⟩
  | max =>
      obtain ⟨greater, hgreater, hselects⟩ := hcombine
      obtain rfl := Option.some.inj hgreater
      obtain rfl := Option.some.inj hidentity
      exact Reducer.computes greatest _ ⟨trivial, rfl⟩ fun a b _ _ =>
        ⟨trivial, hselects.greatest (fun _ _ => bitOf_eq_one_iff) a b⟩

theorem bit_computes {operation : Reduction} {r : Reducer Bit}
    (hcombine : bit.Applies operation r.combine)
    (hidentity : bit.reductionIdentity operation = some r.identity) :
    r.Computes (fun _ => True) id (integers operation) := by
  have hadd : ∀ a b : Bit, a ^^^ b = a + b := by decide
  have hmultiply : ∀ a b : Bit, a &&& b = a * b := by decide
  obtain ⟨combine, identity⟩ := r
  cases operation with
  | add =>
      obtain rfl := Option.some.inj hcombine
      obtain rfl := Option.some.inj hidentity
      exact Reducer.computes _ _ ⟨trivial, rfl⟩ fun a b _ _ => ⟨trivial, hadd a b⟩
  | multiply =>
      obtain rfl := Option.some.inj hcombine
      obtain rfl := Option.some.inj hidentity
      exact Reducer.computes _ _ ⟨trivial, rfl⟩ fun a b _ _ => ⟨trivial, hmultiply a b⟩
  | logicalAnd | logicalOr =>
      obtain rfl := Option.some.inj hcombine
      obtain rfl := Option.some.inj hidentity
      exact Reducer.computes _ _ ⟨trivial, rfl⟩ fun a b _ _ => ⟨trivial, rfl⟩
  | bitAnd | bitOr | bitXor | min | max =>
      exact limb_computes (w := 1) hcombine hidentity

variable [NeZero w] (memory : ℕ → BitVec w)

omit [NeZero w] in
theorem toBitVec_uintZero : (uintZero w bits).toBitVec = BitVec.ofNat bits 0 := by
  show BitVec.ofNat bits (value (List.replicate (limbSizeFor w bits) 0#w)) = BitVec.ofNat bits 0
  rw [value_replicate_zero]

theorem toBitVec_uintOne : (uintOne w bits).toBitVec = BitVec.ofNat bits 1 := by
  show BitVec.ofNat bits (value ((List.replicate (limbSizeFor w bits) 0#w).set 0 1#w)) =
    BitVec.ofNat bits 1
  rcases hsize : limbSizeFor w bits with - | n
  · obtain rfl : bits = 0 := by
      have := (limbSizeFor_le_iff (w := w) bits 0).mp hsize.le
      omega
    exact Subsingleton.elim _ _
  · have hone : (1#w).toNat = 1 := by
      rw [BitVec.toNat_ofNat]
      exact Nat.mod_eq_of_lt (Nat.one_lt_two_pow (NeZero.ne w))
    rw [List.replicate_succ, List.set_cons_zero, value_cons, value_replicate_zero, Nat.mul_zero,
      Nat.add_zero, hone]

theorem toBitVec_uintOnes :
    (Uint.bitNot memory (uintZero w bits)).toBitVec = BitVec.allOnes bits := by
  rw [Uint.toBitVec_bitNot, toBitVec_uintZero, BitVec.not_zero]

theorem uint_computes {operation : Reduction} {r : Reducer (Uint w bits)}
    (hcombine : (uint memory bits).Applies operation r.combine)
    (hidentity : (uint memory bits).reductionIdentity operation = some r.identity) :
    r.Computes (fun _ => True) Uint.toBitVec (integers operation) := by
  obtain ⟨combine, identity⟩ := r
  cases operation with
  | logicalAnd | logicalOr => cases hcombine
  | add =>
      obtain rfl := Option.some.inj hcombine
      obtain rfl := Option.some.inj hidentity
      exact Reducer.computes _ _ ⟨trivial, toBitVec_uintZero⟩ fun a b _ _ =>
        ⟨trivial, (Uint.addFunction_computes.computes memory).operator a b⟩
  | multiply =>
      obtain rfl := Option.some.inj hcombine
      obtain rfl := Option.some.inj hidentity
      exact Reducer.computes _ _ ⟨trivial, toBitVec_uintOne⟩ fun a b _ _ =>
        ⟨trivial, ((Uint.multiplyFunction_computes memory).computes memory).operator a b⟩
  | bitAnd =>
      obtain rfl := Option.some.inj hcombine
      obtain rfl := Option.some.inj hidentity
      exact Reducer.computes _ _ ⟨trivial, toBitVec_uintOnes memory⟩ fun a b _ _ =>
        ⟨trivial, (Uint.bitAndFunction_computes.computes memory).operator a b⟩
  | bitOr =>
      obtain rfl := Option.some.inj hcombine
      obtain rfl := Option.some.inj hidentity
      exact Reducer.computes _ _ ⟨trivial, toBitVec_uintZero⟩ fun a b _ _ =>
        ⟨trivial, (Uint.bitOrFunction_computes.computes memory).operator a b⟩
  | bitXor =>
      obtain rfl := Option.some.inj hcombine
      obtain rfl := Option.some.inj hidentity
      exact Reducer.computes _ _ ⟨trivial, toBitVec_uintZero⟩ fun a b _ _ =>
        ⟨trivial, (Uint.bitXorFunction_computes.computes memory).operator a b⟩
  | min =>
      obtain ⟨less, hless, hselects⟩ := hcombine
      obtain rfl := Option.some.inj hless
      obtain rfl := Option.some.inj hidentity
      refine Reducer.computes least _ ⟨trivial, toBitVec_uintOnes memory⟩ fun a b _ _ =>
        ⟨trivial, hselects.least (fun x y => ?_) a b⟩
      rw [(Uint.compare_eq x y).2.2.1, bitOf_eq_one_iff]
  | max =>
      obtain ⟨greater, hgreater, hselects⟩ := hcombine
      obtain rfl := Option.some.inj hgreater
      obtain rfl := Option.some.inj hidentity
      refine Reducer.computes greatest _ ⟨trivial, toBitVec_uintZero⟩ fun a b _ _ =>
        ⟨trivial, hselects.greatest (fun x y => ?_) a b⟩
      rw [(Uint.compare_eq x y).2.2.2.2.1, bitOf_eq_one_iff]

end

section

variable {N : Modulus} [NeZero w] (memory : ℕ → BitVec w)

theorem toZMod_operator {body : Mod.Body w} {op : ZMod N.toNat → ZMod N.toNat → ZMod N.toNat}
    (hbody : body.Computes N op) {a b : Mod w N} (ha : a.Reduced) (hb : b.Reduced) :
    (Mod.operator memory body a b).Reduced ∧ (Mod.operator memory body a b).toZMod =
      op a.residue b.residue * (N.auxiliaryModulus w : ZMod N.toNat)⁻¹ := by
  rw [Mod.operator_eq memory hbody ha hb]
  refine ⟨Mod.reduced_ofResidue _, ?_⟩
  rw [Mod.toZMod, Mod.residue_ofResidue]

/-- The identity of products, if it compiles. -/
theorem eq_one_of_traitsOne {a : Mod w N} (h : Mod.traitsOne memory N = some a) :
    a = (1 : Residue w N).val :=
  (Mod.traitsOne_definedWhen memory).post h

theorem mod_computes {operation : Reduction} {r : Reducer (Mod w N)}
    (hcombine : (mod memory N).Applies operation r.combine)
    (hidentity : (mod memory N).reductionIdentity operation = some r.identity) :
    r.Computes Mod.Reduced Mod.toZMod (residues operation) := by
  obtain ⟨combine, identity⟩ := r
  cases operation with
  | add =>
      obtain rfl := Option.some.inj hcombine
      obtain rfl := Option.some.inj hidentity
      refine Reducer.computes _ _ ?_ fun a b ha hb => ?_
      · show (Mod.traitsZero w N).Reduced ∧ (Mod.traitsZero w N).toZMod = 0
        rw [Mod.traitsZero_eq]
        exact ⟨(0 : Residue w N).reduced, Residue.toZMod_ofZMod 0⟩
      · obtain ⟨hreduced, hvalue⟩ := toZMod_operator memory (Mod.computes_addBody memory) ha hb
        exact ⟨hreduced, hvalue.trans (add_mul _ _ _)⟩
  | multiply =>
      obtain rfl := Option.some.inj hcombine
      obtain rfl := eq_one_of_traitsOne memory hidentity
      refine Reducer.computes _ _ ⟨(1 : Residue w N).reduced, Residue.toZMod_ofZMod 1⟩
        fun a b ha hb => ?_
      obtain ⟨hreduced, hvalue⟩ := toZMod_operator memory (Mod.computes_multiplyBody memory) ha hb
      refine ⟨hreduced, hvalue.trans ?_⟩
      rw [Mod.toZMod, Mod.toZMod]
      ring
  | logicalAnd | logicalOr | bitAnd | bitOr | bitXor => cases hcombine
  | min | max =>
      obtain ⟨before, hbefore, _⟩ := hcombine
      cases hbefore

/-- **Reductions.** In whichever groups and in whichever order the device combines the elements, the
reductions that compile have the same result, as the numbers that the elements are. -/
theorem reduction_any_order (bits : ℕ) (operation : Reduction) {syclUint : Sycl (Uint w bits)}
    {syclMod : Sycl (Mod w N)} {syclLimb : Sycl (BitVec w)} {syclBit : Sycl Bit}
    (huint : syclUint.Documented (uint memory bits)) (hmod : syclMod.Documented (mod memory N))
    (hlimb : syclLimb.Documented (limb w)) (hbit : syclBit.Documented bit) :
    (uint memory bits).Reduces syclUint operation (fun _ => True) Uint.toBitVec
      (integers operation) ∧
    (mod memory N).Reduces syclMod operation Mod.Reduced Mod.toZMod (residues operation) ∧
    (limb w).Reduces syclLimb operation (fun _ => True) id (integers operation) ∧
    bit.Reduces syclBit operation (fun _ => True) id (integers operation) :=
  ⟨huint.reduces fun _ => uint_computes memory, hmod.reduces fun _ => mod_computes memory,
    hlimb.reduces fun _ => limb_computes, hbit.reduces fun _ => bit_computes⟩

/-- The maximum of two integers of forty bits, whatever the bits above them. -/
theorem reduction_any_order_forty :
    ∃ result, (uint (fun _ => 0#32) 40).reduce (.sequential (uint (fun _ => 0#32) 40)) .max
      [⟨[0xFFFFFFFF, 0xFFFFFF01], rfl⟩, ⟨[0, 0x02], rfl⟩] = some result ∧
      result.toBitVec = 0x200000000#40 :=
  ⟨_, rfl, ((reduction_any_order (N := Mod.prime) (fun _ => 0#32) 40 .max
    (uint_documented _ _) (mod_documented _ _) limb_documented bit_documented).1 _ _ rfl
    fun _ _ => trivial).2.trans (by decide +kernel)⟩

end

end ElementType

end Hmpc.Expr.Detail
