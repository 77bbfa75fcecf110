/-
# Hmpc.Comp.Encryption -- the queue encrypts and decrypts

An encryption is one call of the queue, for both parts of the ciphertext, and a decryption is one
call, too. They compute with elements of both moduli: the plaintext is cast and transformed, and
what is random is drawn by the work items of the transforms. Both parts of a ciphertext multiply the
same `u`, which they do because it is drawn once, for a tensor of its own. So whatever the
generators deliver, the two tensors are an encryption of the plaintext with randomness that its
sources can draw, and what calls encrypt, compute and decrypt is computed on the plaintexts:
`queue_computes_on_plaintexts`.
-/
import Hmpc.Comp.Evaluation

namespace Hmpc.Comp.Encryption

open Hmpc.Core Hmpc.Ints Hmpc.Crypto Hmpc.Lib Hmpc.Lib.Negacyclic Hmpc.Expr
  Hmpc.Expr.Expression Hmpc.Expr.ArrayExpression Hmpc.Expr.NumberTheoreticTransform Hmpc.Expr.Lhe
  Evaluation Polynomial
open Hmpc.Random hiding Position

/-! ## Elements of two moduli -/

/-- `number_theoretic_transform` and `inverse_number_theoretic_transform`, for `m` polynomials -/
def transformed {memory : ℕ → BitVec 32} {N : Modulus} {L : ℕ} (constants : Constants memory N L)
    (launch : Launch (Residue 32 N)) (isInverse : Bool) (m : ℕ) (data : ℕ → Residue 32 N) :
    ℕ → Residue 32 N :=
  if isInverse then inverse L m constants.inverseRoot constants.factor launch data
  else forward L m constants.root launch data

theorem transformed_congr {memory : ℕ → BitVec 32} {N : Modulus} {L m : ℕ}
    {constants : Constants memory N L} {launch : Launch (Residue 32 N)} (htwo : 2 ≤ L)
    (hL : L < 32) (hruns : launch.Runs (2 ^ L) m) (isInverse : Bool) {x y : ℕ → Residue 32 N}
    (h : ∀ k < m * 2 ^ L, x k = y k) {k : ℕ} (hk : k < m * 2 ^ L) :
    transformed constants launch isInverse m x k =
      transformed constants launch isInverse m y k := by
  cases isInverse with
  | false => exact forward_congr htwo hL hruns hruns h hk
  | true => exact inverse_congr htwo hL hruns hruns h hk

/-- An element of a polynomial modulo `p` or modulo `q`. -/
inductive Element (P Q : Modulus)
  | plaintext (a : Residue 32 P)
  | ciphertext (a : Residue 32 Q)

namespace Element

variable {memory : ℕ → BitVec 32} {P Q : Modulus} {L : ℕ}

instance inhabitedElement : Inhabited (Element P Q) := ⟨ciphertext 0⟩

def isPlaintext : Element P Q → Bool
  | plaintext _ => true
  | ciphertext _ => false

def residueP : Element P Q → Residue 32 P
  | plaintext a => a
  | ciphertext _ => 0

def residueQ : Element P Q → Residue 32 Q
  | plaintext _ => 0
  | ciphertext a => a

/-- `cast`, to the type of coefficients with number zero for `q` and one for `p` -/
def cast (c : Compiled memory P Q L) (type : ValueType) : Element P Q → Element P Q
  | plaintext a => if type.scalar = 0 then ciphertext (c.toCiphertext a) else plaintext a
  | ciphertext a => if type.scalar = 0 then ciphertext a else plaintext (c.toPlaintext a)

/-- The operators, between elements of one type. -/
def apply (operation : BinaryOperation) : Element P Q → Element P Q → Element P Q
  | plaintext a, plaintext b => plaintext (Lhe.apply operation a b)
  | ciphertext a, ciphertext b => ciphertext (Lhe.apply operation a b)
  | a, _ => a

/-- The transforms of a list of elements of one type. -/
def transform (c : Compiled memory P Q L) (launches : Launches P Q) (isInverse : Bool)
    (vectorSize : ℕ) (values : List (Element P Q)) : ℕ → Element P Q :=
  let m := values.length / vectorSize
  if (values.getD 0 default).isPlaintext then
    let data k := (values.getD k default).residueP
    fun k => plaintext (transformed c.plaintext launches.plaintext isInverse m data k)
  else
    let data k := (values.getD k default).residueQ
    fun k => ciphertext (transformed c.ciphertext launches.ciphertext isInverse m data k)

/-- The sum of elements of two types, which no expression has, is that of the ciphertexts. -/
def add : Element P Q → Element P Q → Element P Q
  | plaintext a, plaintext b => plaintext (a + b)
  | ciphertext a, ciphertext b => ciphertext (a + b)
  | ciphertext a, plaintext _ => ciphertext a
  | plaintext _, ciphertext b => ciphertext b

instance addElement : Add (Element P Q) := ⟨add⟩

instance zeroElement : Zero (Element P Q) := ⟨plaintext 0⟩

theorem element_add_assoc (x y z : Element P Q) : x + y + z = x + (y + z) := by
  show add (add x y) z = add x (add y z)
  cases x <;> cases y <;> cases z <;> simp only [add, add_assoc]

theorem element_zero_add (x : Element P Q) : 0 + x = x := by
  show add (plaintext 0) x = x
  cases x <;> simp only [add, zero_add]

theorem element_add_comm (x y : Element P Q) : x + y = y + x := by
  show add x y = add y x
  cases x <;> cases y <;> simp only [add, add_comm]

theorem element_add_zero (x : Element P Q) : x + 0 = x :=
  (element_add_comm x 0).trans (element_zero_add x)

instance addCommMonoidElement : AddCommMonoid (Element P Q) where
  add_assoc := element_add_assoc
  zero_add := element_zero_add
  add_zero := element_add_zero
  add_comm := element_add_comm
  nsmul := nsmulRec

variable {c : Compiled memory P Q L} {launches : Launches P Q} {m : ℕ}

theorem getD_map_range {V : Type} {size k : ℕ} (f : ℕ → V) (d : V) (hk : k < size) :
    ((List.range size).map f).getD k d = f k := by
  rw [List.getD_eq_getElem?_getD, List.getElem?_map, List.getElem?_range hk]
  rfl

section

variable (htwo : 2 ≤ L) (hL : L < 32) (hruns : launches.Runs (2 ^ L) m)
include htwo hL hruns

theorem transform_ciphertext (isInverse : Bool) (data : ℕ → Residue 32 Q) {k : ℕ}
    (hk : k < m * 2 ^ L) :
    transform c launches isInverse (2 ^ L)
      ((List.range (m * 2 ^ L)).map fun k => (ciphertext (data k) : Element P Q)) k =
        ciphertext (transformed c.ciphertext launches.ciphertext isInverse m data k) := by
  have hlength : ((List.range (m * 2 ^ L)).map fun k =>
      (ciphertext (data k) : Element P Q)).length / 2 ^ L = m := by
    rw [List.length_map, List.length_range, Nat.mul_div_cancel _ (Nat.two_pow_pos L)]
  rw [transform, hlength, getD_map_range _ _ (Nat.zero_lt_of_lt hk)]
  refine congrArg ciphertext (transformed_congr htwo hL hruns.2 isInverse (fun k hk => ?_) hk)
  rw [getD_map_range _ _ hk]
  rfl

theorem transform_plaintext (isInverse : Bool) (data : ℕ → Residue 32 P) {k : ℕ}
    (hk : k < m * 2 ^ L) :
    transform c launches isInverse (2 ^ L)
      ((List.range (m * 2 ^ L)).map fun k => (plaintext (data k) : Element P Q)) k =
        plaintext (transformed c.plaintext launches.plaintext isInverse m data k) := by
  have hlength : ((List.range (m * 2 ^ L)).map fun k =>
      (plaintext (data k) : Element P Q)).length / 2 ^ L = m := by
    rw [List.length_map, List.length_range, Nat.mul_div_cancel _ (Nat.two_pow_pos L)]
  rw [transform, hlength, getD_map_range _ _ (Nat.zero_lt_of_lt hk)]
  refine congrArg plaintext (transformed_congr htwo hL hruns.1 isInverse (fun k hk => ?_) hk)
  rw [getD_map_range _ _ hk]
  rfl

end

end Element

/-! ## The expressions -/

/-- The plaintext as the message of `enc` -/
def message (n : ℕ) (s : Shape) : Representation → ArrayExpression
  | .coefficient => .transform false (.cast ⟨0, n⟩ (.tensor ⟨1, n⟩ 2 s))
  | .numberTheoreticTransform =>
      .transform false (.cast ⟨0, n⟩ (.transform true (.tensor ⟨1, n⟩ 2 s)))

/-- `number_theoretic_transform` of a random expression -/
def sample (n : ℕ) (s : Shape) (tag : ℕ) : ArrayExpression :=
  .transform false (.random ⟨0, n⟩ tag s)

/-- `enc(key, plaintext, randomness)` -/
def expression (n : ℕ) (s : Shape) (representation : Representation) :
    ArrayExpression × ArrayExpression :=
  enc s.length (vector n 0) (vector n 1) (message n s representation) (sample n s 0)
    (sample n s 1) (sample n s 2) (.value ⟨0, 0⟩ 0)

/-- `dec<Plaintext>(key, ciphertext)` -/
def decryption (n : ℕ) (s : Shape) : Representation → ArrayExpression
  | .coefficient => .cast ⟨1, n⟩ (.transform true (dec s.length (vector n 0) (first n s)))
  | .numberTheoreticTransform =>
      .transform false (.cast ⟨1, n⟩ (.transform true (dec s.length (vector n 0) (first n s))))

theorem plain_unsqueezed {e : ArrayExpression} (h : Plain e) (rank : ℕ) :
    Plain (unsqueezed rank e) := by
  induction rank with
  | zero => exact h
  | succ rank ih =>
      rw [unsqueezed_succ]
      exact ih

theorem plain_expression (n : ℕ) (s : Shape) (representation : Representation) :
    Plain (expression n s representation).1 ∧ Plain (expression n s representation).2 := by
  have hvector (tag : ℕ) : Plain (unsqueezed s.length (vector n tag)) :=
    plain_unsqueezed (e := vector n tag) trivial _
  have hmessage : Plain (message n s representation) := by
    cases representation with
    | coefficient => exact Or.inr trivial
    | numberTheoreticTransform => exact Or.inr (Or.inr trivial)
  exact ⟨⟨⟨⟨hvector 0, Or.inl rfl⟩, Or.inl rfl, trivial⟩, hmessage⟩, ⟨hvector 1, Or.inl rfl⟩,
    Or.inl rfl, trivial⟩

theorem cache_expression (n : ℕ) (s : Shape) (representation : Representation) :
    ∀ top ∈ [(expression n s representation).1, (expression n s representation).2],
      Expr.cache top = .cache top := by
  intro top htop
  simp only [List.mem_cons, List.not_mem_nil, or_false] at htop
  rcases htop with rfl | rfl
  · rfl
  · rfl

theorem plain_decryption (n : ℕ) (s : Shape) (representation : Representation) :
    Plain (decryption n s representation) := by
  have hvector : Plain (unsqueezed s.length (vector n 0)) :=
    plain_unsqueezed (e := vector n 0) trivial _
  cases representation with
  | coefficient => exact Or.inr ⟨trivial, hvector, trivial⟩
  | numberTheoreticTransform => exact Or.inr (Or.inr ⟨trivial, hvector, trivial⟩)

/-! ## Their elements -/

section

variable {V : Type} {s : Shape} {n : ℕ}

theorem hasElements_congr {i : Interpretation V} {other : ArrayExpression → Position → Option V}
    {e : ArrayExpression} {data data' : ℕ → V} (h : HasElements i other e s n data)
    (hdata : ∀ k < s.size * n, data k = data' k) : HasElements i other e s n data' where
  shape := h.shape
  vectorSize := h.vectorSize
  element k hk := by rw [h.element k hk, hdata k hk]

theorem hasElements_cast {i : Interpretation V} {other : ArrayExpression → Position → Option V}
    {e : ArrayExpression} {data : ℕ → V} (h : HasElements i other e s n data) (scalar : ℕ) :
    HasElements i other (.cast ⟨scalar, n⟩ e) s n fun k => i.cast ⟨scalar, n⟩ (data k) where
  shape := h.shape
  vectorSize := rfl
  element k hk := by
    rw [ArrayExpression.evaluate, h.element k hk]
    rfl

theorem compiles_unsqueezed {e : ArrayExpression} (he : e.shape = some []) (hcompiles : e.Compiles)
    (rank : ℕ) : (unsqueezed rank e).Compiles := by
  induction rank with
  | zero => exact hcompiles
  | succ rank ih =>
      have hshape := shape_unsqueezed he (rank + 1)
      rw [unsqueezed_succ] at hshape ⊢
      exact ⟨Option.isSome_iff_exists.mpr ⟨_, hshape⟩, ih⟩

theorem compiles_broadcast {i : Interpretation V} {other : ArrayExpression → Position → Option V}
    (hn : 1 < n) {right : ArrayExpression} {r : ℕ → V} (hr : HasElements i other right s n r)
    (hright : right.Compiles) (operation : BinaryOperation) (tag : ℕ) :
    (binary operation (unsqueezed s.length (vector n tag)) right).Compiles := by
  have h : HasElements i other (binary operation (unsqueezed s.length (vector n tag)) right) s n
      _ := hr.broadcast hn operation 0 tag
  have hvector := shape_unsqueezed (e := vector n tag) rfl s.length
  have hsize : (unsqueezed s.length (vector n tag)).vectorSize = n :=
    vectorSize_unsqueezed _ _
  have haccepts {e : ArrayExpression} {t : Shape} (hshape : e.shape = some t)
      (hsize : e.vectorSize = n) (hlength : t.length = s.length) :
      e.Accepts (binary operation (unsqueezed s.length (vector n tag)) right).elementShape := by
    refine Or.inr ?_
    rw [elementShape_of_shape h.shape, elementShape_of_shape hshape, h.vectorSize, hsize,
      elementShape_of_pos (by omega), elementShape_of_pos (by omega), List.length_append,
      List.length_append, hlength]
  exact ⟨Option.isSome_iff_exists.mpr ⟨s, h.shape⟩,
    Or.inr (Or.inr (hsize.trans hr.vectorSize.symm)),
    haccepts hvector hsize List.length_replicate, haccepts hr.shape hr.vectorSize rfl,
    compiles_unsqueezed (e := vector n tag) rfl trivial _, hright⟩

/-- A transform has the transforms of its operand. -/
theorem hasElements_transform [Inhabited V] {m : Semantics V} {table : ArrayExpression × ℕ → V}
    {e : ArrayExpression} {data : ℕ → V}
    (h : HasElements m.toInterpretation (meant m table) e s n data) (he : e.Compiles) (hn : n ≠ 0)
    (isInverse : Bool) :
    HasElements m.toInterpretation (meant m table) (.transform isInverse e) s n
      (m.transform isInverse n ((List.range (s.size * n)).map data)) := by
  refine hasElements_congr (hasElements_meant hn h.shape h.vectorSize fun _ => rfl) fun k _ => ?_
  have hsize : e.elementShape.size = s.size * n := by
    rw [elementShape_of_shape h.shape, h.vectorSize, Shape.size_eq, prod_counts_elementShape hn]
  have hdata : (List.range (s.size * n)).map (e.meaning m table) =
      (List.range (s.size * n)).map data :=
    List.map_congr_left fun k hk => h.meaning he hn (List.mem_range.mp hk)
  rw [ArrayExpression.meaning, h.vectorSize, hsize, hdata]

end

/-! ## Encryption -/

/-- Generators that draw. -/
abbrev Generator := {random : NumberGenerator // random.Ready}

section

variable {t : ChachaType} {memory : ℕ → Word} {P Q : Modulus} {L : ℕ} {c : Compiled memory P Q L}

/-- A random expression draws its elements from a source. -/
def DrawsFrom (t : ChachaType) (memory : ℕ → Word) (d : Device (Element P Q) Generator)
    (e : ArrayExpression) (source : Source) : Prop :=
  ∀ position g, ∃ a : Residue 32 Q, source.draw t memory Q g.val = some a.val ∧
    (d.draw e position g).1 = .ciphertext a

/-- The operations with elements of both moduli. -/
structure ComputesElements (c : Compiled memory P Q L) (launches : Launches P Q)
    (m : Semantics (Element P Q)) : Prop where
  cast : m.cast = Element.cast c
  apply : m.apply = Element.apply
  transform : m.transform = Element.transform c launches

/-- A device has the public key and a plaintext, and draws from the sources. In which order, and
what else it can do, is left open. -/
structure Encrypts (t : ChachaType) (d : Device (Element P Q) Generator) (key : KeyPair c)
    (shape : Shape) (sources : Sources) (launches : Launches P Q)
    (plaintext : ℕ → Residue 32 P) : Prop extends ComputesElements c launches d.semantics where
  a : d.semantics.tensor 0 = fun k => .ciphertext (key.publicA k)
  b : d.semantics.tensor 1 = fun k => .ciphertext (key.publicB k)
  plaintext : d.semantics.tensor 2 = fun k => .plaintext (plaintext k)
  p : d.semantics.value 0 = .ciphertext c.p
  u : DrawsFrom t memory d (.random ⟨0, 2 ^ L⟩ 0 shape) sources.u
  v : DrawsFrom t memory d (.random ⟨0, 2 ^ L⟩ 1 shape) sources.v
  w : DrawsFrom t memory d (.random ⟨0, 2 ^ L⟩ 2 shape) sources.w

/-- `queue(enc(key, plaintext, randomness))`: both tensors of the ciphertext. -/
def encrypt (d : Device (Element P Q) Generator) (n : ℕ) (s : Shape)
    (representation : Representation) : Option (Ciphertext (Residue 32 Q)) :=
  let e := expression n s representation
  (d.run [e.1, e.2]).map fun (tensors, _) =>
    ⟨fun k => (tensors (Expr.cache e.1) k).residueQ, fun k => (tensors (Expr.cache e.2) k).residueQ⟩

theorem two_pow_eq (htwo : 2 ≤ L) : ∃ k, 2 ^ L = 2 ^ (k + 1) :=
  ⟨L - 1, by rw [Nat.sub_add_cancel (by omega)]⟩

theorem compiles_message (representation : Representation) (htwo : 2 ≤ L) (s : Shape) :
    (message (2 ^ L) s representation).Compiles := by
  cases representation with
  | coefficient => exact ⟨two_pow_eq htwo, rfl, trivial⟩
  | numberTheoreticTransform => exact ⟨two_pow_eq htwo, rfl, two_pow_eq htwo, trivial⟩

theorem compiles_expression {V : Type} [Inhabited V] (m : Semantics V)
    (representation : Representation) (htwo : 2 ≤ L) (s : Shape) :
    (expression (2 ^ L) s representation).1.Compiles ∧
      (expression (2 ^ L) s representation).2.Compiles := by
  have hone : 1 < 2 ^ L := Nat.one_lt_two_pow (by omega)
  have hn : 2 ^ L ≠ 0 := (Nat.two_pow_pos L).ne'
  let none : ArrayExpression × ℕ → V := fun _ => default
  have hsample (tag : ℕ) : HasElements m.toInterpretation (meant m none)
      (sample (2 ^ L) s tag) s (2 ^ L) ((sample (2 ^ L) s tag).meaning m none) :=
    hasElements_meant hn rfl rfl fun _ => rfl
  have hmessage : HasElements m.toInterpretation (meant m none) (message (2 ^ L) s representation)
      s (2 ^ L) ((message (2 ^ L) s representation).meaning m none) := by
    cases representation with
    | coefficient => exact hasElements_meant hn rfl rfl fun _ => rfl
    | numberTheoreticTransform => exact hasElements_meant hn rfl rfl fun _ => rfl
  have hcompiles (tag : ℕ) : (sample (2 ^ L) s tag).Compiles := ⟨two_pow_eq htwo, trivial⟩
  have hkey (tag : ℕ) := (hsample 0).broadcast hone .multiply 0 tag
  have hnoise (tag : ℕ) := (hsample tag).binary_value .multiply 0 0
  have hkeyCompiles (tag : ℕ) := compiles_broadcast hone (hsample 0) (hcompiles 0) .multiply tag
  have hnoiseCompiles (tag : ℕ) :=
    compiles_binary_value (hsample tag) (hcompiles tag) .multiply 0
  exact ⟨compiles_binary ((hkey 0).binary (hnoise 1) .add) hmessage
      (compiles_binary (hkey 0) (hnoise 1) (hkeyCompiles 0) (hnoiseCompiles 1) .add)
      (compiles_message representation htwo s) .add,
    compiles_binary (hkey 1) (hnoise 2) (hkeyCompiles 1) (hnoiseCompiles 2) .add⟩

section

variable {m : Semantics (Element P Q)} {table : ArrayExpression × ℕ → Element P Q}
  {launches : Launches P Q} {s : Shape} {e : ArrayExpression}
  (hm : ComputesElements c launches m)
include hm

theorem hasElements_toCiphertext {data : ℕ → Residue 32 P}
    (h : HasElements m.toInterpretation (meant m table) e s (2 ^ L)
      fun k => .plaintext (data k)) :
    HasElements m.toInterpretation (meant m table) (.cast ⟨0, 2 ^ L⟩ e) s (2 ^ L)
      fun k => .ciphertext (c.toCiphertext (data k)) := by
  have hcast := hasElements_cast h 0
  rw [hm.cast] at hcast
  exact hcast

theorem hasElements_toPlaintext {data : ℕ → Residue 32 Q}
    (h : HasElements m.toInterpretation (meant m table) e s (2 ^ L)
      fun k => .ciphertext (data k)) :
    HasElements m.toInterpretation (meant m table) (.cast ⟨1, 2 ^ L⟩ e) s (2 ^ L)
      fun k => .plaintext (c.toPlaintext (data k)) := by
  have hcast := hasElements_cast h 1
  rw [hm.cast] at hcast
  exact hcast

variable (htwo : 2 ≤ L) (hL : L < 32) (hruns : launches.Runs (2 ^ L) s.size)
include htwo hL hruns

theorem hasElements_ciphertext {data : ℕ → Residue 32 Q}
    (h : HasElements m.toInterpretation (meant m table) e s (2 ^ L)
      fun k => .ciphertext (data k)) (he : e.Compiles) (isInverse : Bool) :
    HasElements m.toInterpretation (meant m table) (.transform isInverse e) s (2 ^ L)
      fun k => .ciphertext
        (transformed c.ciphertext launches.ciphertext isInverse s.size data k) := by
  refine hasElements_congr (hasElements_transform h he (Nat.two_pow_pos L).ne' isInverse)
    fun k hk => ?_
  rw [hm.transform]
  exact Element.transform_ciphertext htwo hL hruns isInverse data hk

theorem hasElements_plaintext {data : ℕ → Residue 32 P}
    (h : HasElements m.toInterpretation (meant m table) e s (2 ^ L)
      fun k => .plaintext (data k)) (he : e.Compiles) (isInverse : Bool) :
    HasElements m.toInterpretation (meant m table) (.transform isInverse e) s (2 ^ L)
      fun k => .plaintext
        (transformed c.plaintext launches.plaintext isInverse s.size data k) := by
  refine hasElements_congr (hasElements_transform h he (Nat.two_pow_pos L).ne' isInverse)
    fun k hk => ?_
  rw [hm.transform]
  exact Element.transform_plaintext htwo hL hruns isInverse data hk

end

section

variable {d : Device (Element P Q) Generator} {key : KeyPair c} {shape : Shape}
  {sources : Sources} {launches : Launches P Q} {plaintext : ℕ → Residue 32 P}
  (hd : Encrypts t d key shape sources launches plaintext) (representation : Representation)
  {table : ArrayExpression × ℕ → Element P Q} (htwo : 2 ≤ L) (hL : L < 32)
  (hruns : launches.Runs (2 ^ L) shape.size)
include hd htwo hL hruns

/-- The transform of what is drawn. -/
theorem exists_sampled {tag : ℕ} {source : Source}
    (hdraws : DrawsFrom t memory d (.random ⟨0, 2 ^ L⟩ tag shape) source)
    (htable : ∀ e j, ∃ position g, table (e, j) = (d.draw e position g).1) :
    ∃ x : Sampled t c shape.size source, HasElements d.semantics.toInterpretation
      (meant d.semantics table) (sample (2 ^ L) shape tag) shape (2 ^ L)
        fun k => .ciphertext (x.transformed k) := by
  choose position g htable using htable (.random ⟨0, 2 ^ L⟩ tag shape)
  choose element helement hvalue using fun k => hdraws (position k) (g k)
  have hrandom : HasElements d.semantics.toInterpretation (meant d.semantics table)
      (.random ⟨0, 2 ^ L⟩ tag shape) shape (2 ^ L) fun k => .ciphertext (element k) :=
    hasElements_congr (hasElements_meant (Nat.two_pow_pos L).ne' rfl rfl fun _ => rfl)
      fun k _ => (htable k).trans (hvalue k)
  exact ⟨⟨element, fun k _ => ⟨(g k).val, (g k).property, helement k⟩, _, launches.ciphertext,
    hruns.2, fun _ _ => rfl⟩,
    hasElements_ciphertext hd.toComputesElements htwo hL hruns hrandom trivial false⟩

/-- The message is the transform of the plaintext's coefficients. -/
theorem hasElements_message : HasElements d.semantics.toInterpretation (meant d.semantics table)
    (message (2 ^ L) shape representation) shape (2 ^ L)
      fun k => .ciphertext (c.message shape representation launches plaintext k) := by
  have hm := hd.toComputesElements
  have htensor : HasElements d.semantics.toInterpretation (meant d.semantics table)
      (.tensor ⟨1, 2 ^ L⟩ 2 shape) shape (2 ^ L) fun k => .plaintext (plaintext k) := by
    rw [← hd.plaintext]
    exact HasElements.tensor (Nat.two_pow_pos L).ne' 1 2
  cases representation with
  | coefficient =>
      exact hasElements_ciphertext hm htwo hL hruns (hasElements_toCiphertext hm htensor)
        ⟨rfl, trivial⟩ false
  | numberTheoreticTransform =>
      have hcoefficients := hasElements_plaintext hm htwo hL hruns htensor trivial true
      exact hasElements_ciphertext hm htwo hL hruns (hasElements_toCiphertext hm hcoefficients)
        ⟨rfl, two_pow_eq htwo, trivial⟩ false

/-- Both parts of the ciphertext, for what has been drawn. -/
theorem hasElements_expression {u v w : ℕ → Residue 32 Q}
    (hu : HasElements d.semantics.toInterpretation (meant d.semantics table)
      (sample (2 ^ L) shape 0) shape (2 ^ L) fun k => .ciphertext (u k))
    (hv : HasElements d.semantics.toInterpretation (meant d.semantics table)
      (sample (2 ^ L) shape 1) shape (2 ^ L) fun k => .ciphertext (v k))
    (hw : HasElements d.semantics.toInterpretation (meant d.semantics table)
      (sample (2 ^ L) shape 2) shape (2 ^ L) fun k => .ciphertext (w k)) :
    HasElements d.semantics.toInterpretation (meant d.semantics table)
      (expression (2 ^ L) shape representation).1 shape (2 ^ L)
      (fun k => .ciphertext (key.publicA (k % 2 ^ L) * u k + v k * c.p +
        c.message shape representation launches plaintext k)) ∧
    HasElements d.semantics.toInterpretation (meant d.semantics table)
      (expression (2 ^ L) shape representation).2 shape (2 ^ L)
      (fun k => .ciphertext (key.publicB (k % 2 ^ L) * u k + w k * c.p)) := by
  have hone : 1 < 2 ^ L := Nat.one_lt_two_pow (by omega)
  have hmessage : HasElements d.semantics.toInterpretation (meant d.semantics table)
      (message (2 ^ L) shape representation) shape (2 ^ L) _ :=
    hasElements_message hd representation htwo hL hruns
  constructor
  · refine hasElements_congr (((hu.broadcast hone .multiply 0 0).binary
      (hv.binary_value .multiply 0 0) .add).binary hmessage .add) fun k _ => ?_
    rw [hd.apply, hd.a, hd.p]
    rfl
  · refine hasElements_congr ((hu.broadcast hone .multiply 0 1).binary
      (hw.binary_value .multiply 0 0) .add) fun k _ => ?_
    rw [hd.apply, hd.b, hd.p]
    rfl

/-- **The queue encrypts.** Whatever the generators deliver, and in whichever order work items run,
the tensors are those of an encryption with randomness that the sources can draw. -/
theorem exists_encryption : ∃ y, encrypt d (2 ^ L) shape representation = some y ∧
    ∃ random : Randomness t c shape sources, ∀ k < shape.size * 2 ^ L,
      y.c0 k = (random.encryption key representation plaintext launches hruns).ciphertext.c0 k ∧
        y.c1 k =
          (random.encryption key representation plaintext launches hruns).ciphertext.c1 k := by
  have hn : 2 ^ L ≠ 0 := (Nat.two_pow_pos L).ne'
  obtain ⟨hplain0, hplain1⟩ := plain_expression (2 ^ L) shape representation
  obtain ⟨hcompiles0, hcompiles1⟩ := compiles_expression d.semantics representation htwo shape
  have hplain : ∀ top ∈ [(expression (2 ^ L) shape representation).1,
      (expression (2 ^ L) shape representation).2], Plain top := by
    simp [hplain0, hplain1]
  obtain ⟨tensors, drawn, table, hrun, htable, hmeaning⟩ := Device.exists_table_run d _
    (by simp [hcompiles0, hcompiles1]) (fun top htop y => (hplain top htop).productCompiles)
    (inTime_of_plain hplain (cache_expression (2 ^ L) shape representation))
    (randomOnce_of_plain hplain)
  -- both parts have the same `u`, since there is one tensor of its transform
  obtain ⟨u, hu⟩ := exists_sampled hd htwo hL hruns hd.u htable
  obtain ⟨v, hv⟩ := exists_sampled hd htwo hL hruns hd.v htable
  obtain ⟨w, hw⟩ := exists_sampled hd htwo hL hruns hd.w htable
  obtain ⟨helements0, helements1⟩ :=
    hasElements_expression hd representation htwo hL hruns hu hv hw
  refine ⟨_, Option.map_eq_some_iff.mpr ⟨_, hrun, rfl⟩, ⟨u, v, w⟩, fun k hk => ?_⟩
  obtain ⟨h0, h1⟩ := (Randomness.encryption ⟨u, v, w⟩ key representation plaintext launches
    hruns).ciphertext_eq htwo hk
  rw [h0, h1]
  exact ⟨congrArg Element.residueQ (tensor_eq hmeaning helements0 (by simp) hcompiles0 hn hk),
    congrArg Element.residueQ (tensor_eq hmeaning helements1 (by simp) hcompiles1 hn hk)⟩

end

/-! ## Decryption -/

/-- A device has the secret key and a ciphertext. In which order it works, and what else it can do,
is left open. -/
structure Deciphers {G : Type} (d : Device (Element P Q) G) (key : KeyPair c)
    (launches : Launches P Q) (y : Ciphertext (Residue 32 Q)) : Prop
    extends ComputesElements c launches d.semantics where
  secret : d.semantics.tensor 0 = fun k => .ciphertext (key.secret k)
  c0 : d.semantics.tensor 1 = fun k => .ciphertext (y.c0 k)
  c1 : d.semantics.tensor 2 = fun k => .ciphertext (y.c1 k)

/-- `queue(dec<Plaintext>(key, ciphertext))`: the tensor of the plaintext. -/
def decrypt {G : Type} (d : Device (Element P Q) G) (n : ℕ) (s : Shape)
    (representation : Representation) : Option (ℕ → Residue 32 P) :=
  let e := decryption n s representation
  (d.run [e]).map fun (tensors, _) k => (tensors (Expr.cache e) k).residueP

section

variable {G : Type} {d : Device (Element P Q) G} {key : KeyPair c} {shape : Shape}
  {launches : Launches P Q} {y : Ciphertext (Residue 32 Q)} (hd : Deciphers d key launches y)
  (representation : Representation) {table : ArrayExpression × ℕ → Element P Q}
  (htwo : 2 ≤ L) (hL : L < 32) (hruns : launches.Runs (2 ^ L) shape.size)

theorem compiles_dec {V : Type} (i : Interpretation V) (htwo : 2 ≤ L) (s : Shape) :
    (dec s.length (vector (2 ^ L) 0) (first (2 ^ L) s)).vectorSize = 2 ^ L ∧
      (dec s.length (vector (2 ^ L) 0) (first (2 ^ L) s)).Compiles := by
  have hone : 1 < 2 ^ L := Nat.one_lt_two_pow (by omega)
  have h0 : HasElements i (fun _ _ => none) (operand (2 ^ L) s 1) s (2 ^ L) _ :=
    HasElements.tensor (by omega) 0 1
  have h1 : HasElements i (fun _ _ => none) (operand (2 ^ L) s 2) s (2 ^ L) _ :=
    HasElements.tensor (by omega) 0 2
  have hproduct := h1.broadcast hone .multiply 0 0
  exact ⟨(h0.binary hproduct .subtract).vectorSize, compiles_binary h0 hproduct trivial
    (compiles_broadcast hone h1 trivial .multiply 0) .subtract⟩

theorem compiles_decryption {V : Type} (i : Interpretation V) (htwo : 2 ≤ L) (s : Shape) :
    (decryption (2 ^ L) s representation).Compiles := by
  obtain ⟨hsize, hcompiles⟩ := compiles_dec i htwo s
  have htransform : (ArrayExpression.transform true
      (dec s.length (vector (2 ^ L) 0) (first (2 ^ L) s))).Compiles :=
    ⟨by rw [hsize]; exact two_pow_eq htwo, hcompiles⟩
  cases representation with
  | coefficient => exact ⟨hsize.symm, htransform⟩
  | numberTheoreticTransform => exact ⟨two_pow_eq htwo, hsize.symm, htransform⟩

include hd htwo hL hruns

theorem hasElements_decryption :
    HasElements d.semantics.toInterpretation (meant d.semantics table)
      (decryption (2 ^ L) shape representation) shape (2 ^ L) fun k => .plaintext (c.decrypt shape
        representation launches (operands key.secret y y fun _ => 0) (first (2 ^ L) shape) k) := by
  have hone : 1 < 2 ^ L := Nat.one_lt_two_pow (by omega)
  have hm := hd.toComputesElements
  have h0 : HasElements d.semantics.toInterpretation (meant d.semantics table)
      (operand (2 ^ L) shape 1) shape (2 ^ L) fun k => .ciphertext (y.c0 k) := by
    rw [← hd.c0]
    exact HasElements.tensor (by omega) 0 1
  have h1 : HasElements d.semantics.toInterpretation (meant d.semantics table)
      (operand (2 ^ L) shape 2) shape (2 ^ L) fun k => .ciphertext (y.c1 k) := by
    rw [← hd.c1]
    exact HasElements.tensor (by omega) 0 2
  obtain ⟨hsize, hcompiles⟩ := compiles_dec d.semantics.toInterpretation htwo shape
  obtain ⟨hciphertext, -, -⟩ := hasCiphertext_operands (c := c) htwo key.secret (fun _ => 0) y y
    shape
  have hdec : HasElements d.semantics.toInterpretation (meant d.semantics table)
      (dec shape.length (vector (2 ^ L) 0) (first (2 ^ L) shape)) shape (2 ^ L)
      fun k => .ciphertext (Lhe.elements (interpretation (operands key.secret y y fun _ => 0) c.p)
        (dec shape.length (vector (2 ^ L) 0) (first (2 ^ L) shape)) k) := by
    refine hasElements_congr (h0.binary (h1.broadcast hone .multiply 0 0) .subtract)
      fun k hk => ?_
    rw [elements_eq (hasElements_dec hone _ c.p hciphertext) hk, hd.apply, hd.secret]
    rfl
  have hcastBack := hasElements_toPlaintext hm
    (hasElements_ciphertext hm htwo hL hruns hdec hcompiles true)
  cases representation with
  | coefficient => exact hcastBack
  | numberTheoreticTransform =>
      exact hasElements_plaintext hm htwo hL hruns hcastBack
        ⟨hsize.symm, by rw [hsize]; exact two_pow_eq htwo, hcompiles⟩ false

/-- **The queue decrypts.** -/
theorem decrypt_eq_some : ∃ z, decrypt d (2 ^ L) shape representation = some z ∧
    ∀ k < shape.size * 2 ^ L, z k = c.decrypt shape representation launches
      (operands key.secret y y fun _ => 0) (first (2 ^ L) shape) k := by
  have hplain := plain_decryption (2 ^ L) shape representation
  have hcompiles := compiles_decryption representation d.semantics.toInterpretation htwo shape
  obtain ⟨tensors, drawn, table, hrun, -, hmeaning⟩ :=
    Device.exists_table_run d [decryption (2 ^ L) shape representation] (by simp [hcompiles])
      (by simpa using fun y => hplain.productCompiles) (inTime_singleton _)
      (randomOnce_of_plain (by simp [hplain]))
  have helements : HasElements d.semantics.toInterpretation (meant d.semantics table)
      (decryption (2 ^ L) shape representation) shape (2 ^ L) _ :=
    hasElements_decryption hd representation htwo hL hruns
  exact ⟨_, Option.map_eq_some_iff.mpr ⟨_, hrun, rfl⟩, fun k hk => congrArg Element.residueP
    (tensor_eq hmeaning helements (by simp) hcompiles (Nat.two_pow_pos L).ne' hk)⟩

end

/-! ## From plaintexts to plaintexts -/

/-- What decryption promises does not depend on what is behind the last polynomial. -/
theorem decrypts_congr (htwo : 2 ≤ L) (hL : L < 32) {key : KeyPair c} {shape : Shape}
    {representation : Representation} {x : ℕ → Encryption key shape representation}
    {r : ℕ → ℕ → ℤ} {scalars : ℕ → ℤ} {launches : Launches P Q}
    (hruns : launches.Runs (2 ^ L) shape.size) {circuit : Circuit} {z z' : ℕ → Residue 32 P}
    (h : circuit.Decrypts x r scalars launches z) (heq : ∀ k < shape.size * 2 ^ L, z' k = z k) :
    circuit.Decrypts x r scalars launches z' where
  polynomials i hi := by
    rw [← h.polynomials i hi]
    refine polynomial_congr fun j hj => ?_
    have hk := position_of_lt hi hj
    cases representation with
    | coefficient => exact heq _ hk
    | numberTheoreticTransform => exact inverse_congr htwo hL hruns.1 hruns.1 heq hk
  slots hrepresentation factors hfactors k hk :=
    (heq k hk).trans (h.slots hrepresentation factors hfactors k hk)

/-- **The queue computes on plaintexts.** The calls that encrypt, those of a program and those that
decrypt come to an end, whatever is drawn and in whichever order work items run. A ciphertext is
decrypted to its circuit on the plaintexts, if the moduli leave room for the noise of the circuit.
-/
theorem queue_computes_on_plaintexts (htwo : 2 ≤ L) (hL : L < 32) (hP : P.toNat.Prime)
    (hQ : Q.toNat.Prime) {key : KeyPair c} {shape : Shape} {representation : Representation}
    {sources : Sources} (hsources : sources.FillLimbs memory) {launches : Launches P Q}
    (hruns : launches.Runs (2 ^ L) shape.size) {s e : ℤ} (hs : ∀ k < 2 ^ L, |key.s k| ≤ s)
    (he : ∀ k < 2 ^ L, |key.e k| ≤ e) (plaintext : ℕ → ℕ → Residue 32 P)
    (encrypting : ℕ → Device (Element P Q) Generator)
    (hencrypting : ∀ j, Encrypts t (encrypting j) key shape sources launches (plaintext j))
    (r : ℕ → ℕ → ℤ) (transformedR : ℕ → ℕ → Residue 32 Q)
    (hr : ∀ j, IsTransform c.ciphertext shape.size (fun k => r j k) (transformedR j))
    {bounds : ℕ → ℤ} (hbounds : ∀ j, ∀ k < shape.size * 2 ^ L, |r j k| ≤ bounds j)
    (scalars : ℕ → ℤ) {G : Type} (program : List (Call (Residue 32 Q) G))
    (hdevices : ∀ call ∈ program, ∀ y,
      Computes (call.device y) y transformedR fun j => scalars j) {G' : Type}
    (decrypting : Ciphertext (Residue 32 Q) → Device (Element P Q) G')
    (hdecrypting : ∀ y, Deciphers (decrypting y) key launches y) :
    ∃ fresh y, ∃ z : ℕ → ℕ → Residue 32 P,
      (∀ j, encrypt (encrypting j) (2 ^ L) shape representation = some (fresh j)) ∧
      Evaluation.run (2 ^ L) shape program fresh = some y ∧
      (∀ j, decrypt (decrypting (y j)) (2 ^ L) shape representation = some (z j)) ∧
      ∃ x : ℕ → Encryption key shape representation, (∀ j, (x j).plaintext = plaintext j) ∧
        ∀ j, (circuits program j).noise (2 ^ L : ℕ)
            (fun _ => (sources.bounds memory s e).fresh (2 ^ L : ℕ) P.toNat) bounds scalars ≤
              ((Q.toNat : ℤ) - 1) / 2 →
          (circuits program j).Decrypts x r scalars launches (z j) := by
  choose fresh hfresh random hciphertext using fun j =>
    exists_encryption (hencrypting j) representation htwo hL hruns
  let x (j : ℕ) := (random j).encryption key representation (plaintext j) launches hruns
  have hstart : HasPhases c key x r scalars .input fresh := fun j => by
    have hphase : HasPhase c key.secret shape.size (x j).ciphertext (x j).phase :=
      (x j).hasPhase htwo hL hQ
    refine Slots.congr hphase (fun k hk => ?_) fun _ _ _ => rfl
    rw [(hciphertext j k hk).1, (hciphertext j k hk).2]
  obtain ⟨y, hy, h⟩ := hasPhases_run htwo hL hQ hr program hdevices hstart
  choose z hz hdecrypted using fun j =>
    decrypt_eq_some (hdecrypting (y j)) representation htwo hL hruns
  refine ⟨fresh, y, z, hfresh, hy, hz, x, fun _ => rfl, fun j hnoise =>
    decrypts_congr htwo hL hruns
      (Circuit.decrypts_of_hasPhase htwo hL hP hQ hruns (h j) fun i hi => ?_) (hdecrypted j)⟩
  exact (circuits program j).bounded_phase (fun j => (random j).within_encryption hsources hs he
    representation (plaintext j) launches hruns) hbounds hnoise hi

end

/-- Elements of both moduli, and work items that run from the last one on. -/
def device {memory : ℕ → Word} {P Q : Modulus} {L : ℕ} (c : Compiled memory P Q L)
    (launches : Launches P Q) (tensor : ℕ → ℕ → Element P Q)
    (drawn : ArrayExpression → Generator → Residue 32 Q) :
    Device (Element P Q) Generator where
  semantics := {
    tensor := tensor
    value := fun _ => .ciphertext c.p
    cast := Element.cast c
    apply := Element.apply
    reduce := fun _ values => values.sum
    transform := Element.transform c launches }
  draw := fun e _ g => (.ciphertext (drawn e g), g)
  generator := fun _ _ => ⟨Uniform.zeroGenerator, Uniform.ready_zeroGenerator⟩
  order := fun _ size => (List.range size).reverse
  order_perm := perm_reverse
  combine := fun _ a b => a + b
  identity := fun _ => 0
  grouping := fun _ => Grouping.ofList
  grouping_values := fun _ values => List.Perm.of_eq (Grouping.values_ofList values)
  eval_eq := fun _ => Device.eval_add

/-- A device that encrypts. -/
def encrypting {memory : ℕ → Word} {P Q : Modulus} {L : ℕ} (c : Compiled memory P Q L)
    (key : KeyPair c) (launches : Launches P Q) (plaintext : ℕ → Residue 32 P)
    (drawn : ArrayExpression → Generator → Residue 32 Q) : Device (Element P Q) Generator :=
  device c launches (fun tag k =>
    if tag = 0 then .ciphertext (key.publicA k)
    else if tag = 1 then .ciphertext (key.publicB k)
    else .plaintext (plaintext k)) drawn

/-- A device that decrypts. -/
def decrypting {memory : ℕ → Word} {P Q : Modulus} {L : ℕ} (c : Compiled memory P Q L)
    (key : KeyPair c) (launches : Launches P Q) (y : Ciphertext (Residue 32 Q)) :
    Device (Element P Q) Generator :=
  device c launches (fun tag k =>
    if tag = 0 then .ciphertext (key.secret k)
    else if tag = 1 then .ciphertext (y.c0 k)
    else .ciphertext (y.c1 k)) fun _ _ => 0

theorem exists_draws_roomy (v : Binomial.Variance) (hv : v.valueType.bitSize < roomy.bitSize) :
    ∃ drawn : Generator → Residue 32 roomy, ∀ g,
      (Source.centeredBinomial v).draw chacha20 (fun _ => 0) roomy g.val = some (drawn g).val := by
  have hfull : (Source.centeredBinomial v).FillsLimbs fun _ => 0 := trivial
  have hexists (g : Generator) : ∃ a : Residue 32 roomy,
      (Source.centeredBinomial v).draw chacha20 (fun _ => 0) roomy g.val = some a.val :=
    Source.exists_draw hfull (signedCompiles_roomy hv) g.property
  choose drawn hdrawn using hexists
  exact ⟨drawn, hdrawn⟩

theorem queue_computes_on_plaintexts_roomy :
    ∃ (c : Compiled (fun _ => 0) seventeen roomy 2) (key : KeyPair c)
      (drawn : ArrayExpression → Generator → Residue 32 roomy)
      (transformedR : ℕ → ℕ → Residue 32 roomy) (fresh y : ℕ → Ciphertext (Residue 32 roomy))
      (z : ℕ → Residue 32 seventeen)
      (x : ℕ → Encryption key [.dynamic 2] .numberTheoreticTransform),
      (∀ j, encrypt (encrypting c key ⟨items _ 4, items _ 4⟩ (fun k => (j + k : ℕ)) drawn) (2 ^ 2)
        [.dynamic 2] .numberTheoreticTransform = some (fresh j)) ∧
        Evaluation.run (2 ^ 2) [.dynamic 2] (inTwoCalls (fromLast transformedR 0)) fresh = some y ∧
        decrypt (decrypting c key ⟨items _ 4, items _ 4⟩ (y 3)) (2 ^ 2) [.dynamic 2]
          .numberTheoreticTransform = some z ∧
        (∀ j k, (x j).plaintext k = (j + k : ℕ)) ∧
        shifted.Decrypts x (fun _ k => if k % 4 = 1 then 1 else 0) 0
          ⟨items _ 4, items _ 4⟩ z := by
  obtain ⟨c⟩ := nonempty_compiled_roomy
  obtain ⟨small, hsmall⟩ := exists_draws_roomy half (by decide)
  obtain ⟨large, hlarge⟩ := exists_draws_roomy ten (by decide)
  have hlaunch : (items roomy 2).Runs (2 ^ 2) 1 := fun _ => List.Perm.refl _
  let key := trivialKey c _ hlaunch
  let drawn (e : ArrayExpression) : Generator → Residue 32 roomy :=
    if e = .random ⟨0, 2 ^ 2⟩ 0 [.dynamic 2] then small else large
  let r : ℕ → ℕ → ℤ := fun _ k => if k % 4 = 1 then 1 else 0
  let transformedR : ℕ → ℕ → Residue 32 roomy := fun j =>
    forward 2 (Shape.size [.dynamic 2]) c.ciphertext.root (items roomy 4) fun k => r j k
  have hencrypting (j : ℕ) : Encrypts chacha20
      (encrypting c key ⟨items _ 4, items _ 4⟩ (fun k => (j + k : ℕ)) drawn) key [.dynamic 2]
      (randomness half ten ten) ⟨items _ 4, items _ 4⟩ fun k => (j + k : ℕ) :=
    ⟨⟨rfl, rfl, rfl⟩, rfl, rfl, rfl, rfl, fun _ g => ⟨_, hsmall g, rfl⟩,
      fun _ g => ⟨_, hlarge g, rfl⟩, fun _ g => ⟨_, hlarge g, rfl⟩⟩
  have hsources : (randomness half ten ten).FillLimbs fun _ => 0 := ⟨trivial, trivial, trivial⟩
  obtain ⟨fresh, y, z, hfresh, hy, hz, x, hx, h⟩ := queue_computes_on_plaintexts le_rfl (by decide)
    (by decide) prime_roomy hsources runs_items (fun k _ => abs_trivialKey_le c _ hlaunch k)
    (fun _ _ => le_rfl) (fun j k => (j + k : ℕ)) _ hencrypting r transformedR
    (fun j => ⟨items roomy 4, runs_items.2, fun _ _ => rfl⟩) (fun _ k _ => abs_monomial_le k) 0
    (inTwoCalls (fromLast transformedR 0)) (computes_inTwoCalls _ _)
    (decrypting c key ⟨items _ 4, items _ 4⟩) fun _ => ⟨⟨rfl, rfl, rfl⟩, rfl, rfl, rfl⟩
  exact ⟨c, key, drawn, transformedR, fresh, y, z 3, x, hfresh, hy, hz 3,
    fun j k => by rw [hx j], h 3 noise_roomy⟩

end Hmpc.Comp.Encryption
