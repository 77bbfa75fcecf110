/-
# Hmpc.Expr.Mpc.Share -- additive shares

Every party holds one summand of a value, and evaluates its own copy of an expression of shares.
What is public is added by the first party of the communicator alone, whichever ids there are, and
multiplies the share of everyone. So what the parties compute adds up to what the expression is of
the values that are shared.
-/
import Mathlib.Algebra.BigOperators.Fin
import Mathlib.Algebra.BigOperators.Ring.Finset
import Hmpc.Expr.Pointwise
import Hmpc.Lib.FoldExpression
import Hmpc.Net.Message

namespace Hmpc.Expr

/-! ## Operators of expressions -/

/-- `operator+` -/
instance arrayExpressionAdd : Add ArrayExpression := ⟨.binary .add⟩

/-- `operator-` -/
instance arrayExpressionSub : Sub ArrayExpression := ⟨.binary .subtract⟩

/-- `operator*` -/
instance arrayExpressionMul : Mul ArrayExpression := ⟨.binary .multiply⟩

/-- Elements of a ring, with its own operations. -/
def Interpretation.ofRing {R : Type} [Add R] [Sub R] [Mul R] (m : Interpretation R) :
    Interpretation R :=
  { m with
    apply := fun
      | .add => (· + ·)
      | .subtract => (· - ·)
      | .multiply => (· * ·)
      | operation => m.apply operation }

namespace Mpc

open Hmpc.Lib Hmpc.Net

/-! ## Shares and their operators -/

/-- `communicator`: "Communicator has to be free of duplicates". -/
structure Communicator where
  parties : List PartyID
  nonempty : parties ≠ []
  nodup : parties.Nodup

namespace Communicator

variable (C : Communicator)

def size : ℕ := C.parties.length

def get (i : Fin C.size) : PartyID := C.parties.get i

def zero : Fin C.size := ⟨0, List.length_pos_iff.mpr C.nonempty⟩

/-- One party only has the first id. -/
theorem get_zero_eq_iff {i : Fin C.size} : C.get C.zero = C.get i ↔ C.zero = i :=
  C.nodup.get_inj_iff

end Communicator

/-- `share_expression` -/
structure ShareExpression (T : Type) (C : Communicator) (id : PartyID) where
  value : T

namespace ShareExpression

variable {T U : Type} {C : Communicator} {id : PartyID}

/-- `from_parts` -/
def fromParts (other : T) : ShareExpression T C id := ⟨other⟩

section

variable [Add T] [Sub T] [Mul T]

/-- `operator+` of two shares -/
def add (x other : ShareExpression T C id) : ShareExpression T C id := ⟨x.value + other.value⟩

/-- `operator+` of a share and something public -/
def addPublic (x : ShareExpression T C id) (other : T) : ShareExpression T C id :=
  if C.get C.zero = id then ⟨x.value + other⟩ else x

/-- `operator-` of two shares -/
def sub (x other : ShareExpression T C id) : ShareExpression T C id := ⟨x.value - other.value⟩

/-- `operator-` of a share and something public -/
def subPublic (x : ShareExpression T C id) (other : T) : ShareExpression T C id :=
  if C.get C.zero = id then ⟨x.value - other⟩ else x

/-- `operator*` of something public and a share -/
def mul (left : T) (right : ShareExpression T C id) : ShareExpression T C id :=
  ⟨left * right.value⟩

end

/-- The share that a party has when it has evaluated the expression. -/
def evaluate (value : T → U) (x : ShareExpression T C id) : ShareExpression U C id :=
  fromParts (value x.value)

end ShareExpression

/-- `shares_expression` -/
structure SharesExpression (T : Type) (C : Communicator) where
  shares : Fin C.size → T

namespace SharesExpression

variable {T : Type} {C : Communicator}

def get (s : SharesExpression T C) (i : Fin C.size) : ShareExpression T C (C.get i) :=
  ⟨s.shares i⟩

/-- `from_parts` -/
def fromParts (others : Fin C.size → T) : SharesExpression T C := ⟨others⟩

def reconstruct [Add T] (s : SharesExpression T C) : Option T :=
  foldRight (· + ·) (List.ofFn s.shares)

end SharesExpression

/-- `shares` -/
def shares {T : Type} {C : Communicator} (x : ∀ i, ShareExpression T C (C.get i)) :
    SharesExpression T C :=
  .fromParts fun i => (x i).value

/-! ## Expressions of shares -/

/-- What is computed of shared and public values, as the program of every party has it. -/
inductive Arithmetic (V P : Type)
  | share (v : V)
  | add (left right : Arithmetic V P)
  | sub (left right : Arithmetic V P)
  | addPublic (inner : Arithmetic V P) (other : P)
  | subPublic (inner : Arithmetic V P) (other : P)
  | mul (left : P) (right : Arithmetic V P)

namespace Arithmetic

variable {V P T R : Type} {C : Communicator}

/-- What one party builds of its own shares. -/
def expression [Add T] [Sub T] [Mul T] {id : PartyID} (x : V → ShareExpression T C id)
    (c : P → T) : Arithmetic V P → ShareExpression T C id
  | share v => x v
  | add left right => (left.expression x c).add (right.expression x c)
  | sub left right => (left.expression x c).sub (right.expression x c)
  | addPublic inner other => (inner.expression x c).addPublic (c other)
  | subPublic inner other => (inner.expression x c).subPublic (c other)
  | mul left right => .mul (c left) (right.expression x c)

/-- The value that is meant. -/
def value [Add R] [Sub R] [Mul R] (x : V → R) (c : P → R) : Arithmetic V P → R
  | share v => x v
  | add left right => left.value x c + right.value x c
  | sub left right => left.value x c - right.value x c
  | addPublic inner other => inner.value x c + c other
  | subPublic inner other => inner.value x c - c other
  | mul left right => c left * right.value x c

end Arithmetic

/-! ## Reconstruction -/

section

variable {T R : Type} {C : Communicator}

/-- How expressions are evaluated: operators are those of the values. -/
structure Evaluates [Add T] [Sub T] [Mul T] [Add R] [Sub R] [Mul R] (value : T → R) : Prop where
  add : ∀ a b, value (a + b) = value a + value b
  sub : ∀ a b, value (a - b) = value a - value b
  mul : ∀ a b, value (a * b) = value a * value b

theorem evaluates_denote {R : Type} [Add R] [Sub R] [Mul R] (m : Interpretation R)
    (other : ArrayExpression → List ℕ → R) (c : List ℕ) :
    Evaluates fun e : ArrayExpression => e.denote m.ofRing other c where
  add _ _ := rfl
  sub _ _ := rfl
  mul _ _ := rfl

/-- The expression that reconstructs shares stands for their sum. -/
theorem reconstruct_evaluate [Add T] [AddCommMonoid R] {value : T → R}
    (hvalue : ∀ a b, value (a + b) = value a + value b) (s : SharesExpression T C) :
    s.reconstruct.map value = some (∑ i, value (s.get i).value) := by
  have hne : List.ofFn s.shares ≠ [] := by
    rw [← List.length_pos_iff, List.length_ofFn]
    exact C.zero.pos
  rw [SharesExpression.reconstruct, foldRight_sum hvalue hne, List.map_ofFn, List.sum_ofFn]
  rfl

theorem reconstruct_shares [AddCommMonoid R] (x : ∀ i, ShareExpression R C (C.get i)) :
    (shares x).reconstruct = some (∑ i, (x i).value) := by
  have h : (shares x).reconstruct.map id = some (∑ i, id (x i).value) :=
    reconstruct_evaluate (fun _ _ => rfl) (shares x)
  rwa [Option.map_id] at h

/-- Exactly one party has the first id of the communicator. -/
theorem sum_first [AddCommMonoid R] (c : R) :
    (∑ i, if C.get C.zero = C.get i then c else 0) = c := by
  simp only [C.get_zero_eq_iff]
  exact (Finset.sum_ite_eq Finset.univ C.zero fun _ => c).trans (if_pos (Finset.mem_univ _))

variable [Add T] [Sub T] [Mul T] [CommRing R] {id : PartyID} {value : T → R}

theorem value_addPublic (h : Evaluates value) (x : ShareExpression T C id) (c : T) :
    value (x.addPublic c).value =
      value x.value + if C.get C.zero = id then value c else 0 := by
  unfold ShareExpression.addPublic
  split
  · exact h.add _ _
  · rw [add_zero]

theorem value_subPublic (h : Evaluates value) (x : ShareExpression T C id) (c : T) :
    value (x.subPublic c).value =
      value x.value - if C.get C.zero = id then value c else 0 := by
  unfold ShareExpression.subPublic
  split
  · exact h.sub _ _
  · rw [sub_zero]

/-- Every party evaluates its own expression, in its own memory. -/
theorem sum_expression {V P : Type} {value : Fin C.size → T → R} (h : ∀ i, Evaluates (value i))
    (x : V → ∀ i, ShareExpression T C (C.get i)) (c : P → Fin C.size → T) {d : P → R}
    (hc : ∀ p i, value i (c p i) = d p) (e : Arithmetic V P) :
    ∑ i, value i (e.expression (fun v => x v i) (fun p => c p i)).value =
      e.value (fun v => ∑ i, value i (x v i).value) d := by
  induction e with
  | share v => rfl
  | add left right ihleft ihright =>
      rw [Arithmetic.value, ← ihleft, ← ihright, ← Finset.sum_add_distrib]
      exact Finset.sum_congr rfl fun i _ => (h i).add _ _
  | sub left right ihleft ihright =>
      rw [Arithmetic.value, ← ihleft, ← ihright, ← Finset.sum_sub_distrib]
      exact Finset.sum_congr rfl fun i _ => (h i).sub _ _
  | addPublic inner other ih =>
      rw [Arithmetic.value, ← ih, ← sum_first (C := C) (d other), ← Finset.sum_add_distrib]
      refine Finset.sum_congr rfl fun i _ => ?_
      rw [Arithmetic.expression, value_addPublic (h i), hc]
  | subPublic inner other ih =>
      rw [Arithmetic.value, ← ih, ← sum_first (C := C) (d other), ← Finset.sum_sub_distrib]
      refine Finset.sum_congr rfl fun i _ => ?_
      rw [Arithmetic.expression, value_subPublic (h i), hc]
  | mul left right ih =>
      rw [Arithmetic.value, ← ih, Finset.mul_sum]
      refine Finset.sum_congr rfl fun i _ => ?_
      rw [Arithmetic.expression, ShareExpression.mul, (h i).mul, hc]

end

/-- **Reconstruction of share arithmetic.** The parties of a communicator evaluate an expression of
their shares, each with its own memory and its own copies of what is public. Their results are
shares of the value of the expression. -/
theorem reconstructShareArithmetic {R V P : Type} [CommRing R] (C : Communicator)
    (e : Arithmetic V P) (m : Fin C.size → Interpretation R)
    (other : Fin C.size → ArrayExpression → List ℕ → R)
    (x : V → ∀ i, ShareExpression ArrayExpression C (C.get i))
    (c : P → Fin C.size → ArrayExpression) (d : P → R) (coordinates : List ℕ)
    (hpublic : ∀ p i, (c p i).denote (m i).ofRing (other i) coordinates = d p) :
    ∃ value : V → R,
      (∀ v, (shares fun i => (x v i).evaluate fun s =>
        s.denote (m i).ofRing (other i) coordinates).reconstruct = some (value v)) ∧
      (shares fun i => (e.expression (fun v => x v i) (fun p => c p i)).evaluate fun s =>
        s.denote (m i).ofRing (other i) coordinates).reconstruct = some (e.value value d) := by
  refine ⟨fun v => ∑ i, (x v i).value.denote (m i).ofRing (other i) coordinates,
    fun v => reconstruct_shares _, ?_⟩
  rw [reconstruct_shares]
  exact congrArg some (sum_expression (fun i => evaluates_denote (m i) (other i) coordinates) x c
    hpublic e)

/-- Two parties, the second of which has the smaller id. -/
def descending : Communicator := ⟨[7, 3], by decide, by decide⟩

/-- The memory of a party, where its share is its place in the communicator, and five is public. -/
def memory (i : Fin descending.size) : Interpretation ℤ where
  tensor _ _ := 0
  value tag := if tag = 0 then i.val else 5
  cast _ v := v
  apply _ v _ := v

theorem reconstructShareArithmetic_descending :
    ∃ value : Unit → ℤ,
      (∀ v : Unit, (shares fun i => (ShareExpression.fromParts (ArrayExpression.value ⟨0, 0⟩ 0) :
        ShareExpression ArrayExpression descending (descending.get i)).evaluate fun s =>
          s.denote (memory i).ofRing (fun _ _ => 0) []).reconstruct = some (value v)) ∧
      (shares fun i => ((Arithmetic.mul () (.addPublic (.share ()) ())).expression
        (fun _ : Unit => (.fromParts (.value ⟨0, 0⟩ 0) :
          ShareExpression ArrayExpression descending (descending.get i)))
        (fun _ : Unit => .value ⟨0, 0⟩ 1)).evaluate fun s =>
          s.denote (memory i).ofRing (fun _ _ => 0) []).reconstruct =
        some (5 * (value () + 5)) :=
  reconstructShareArithmetic descending (.mul () (.addPublic (.share ()) ())) memory
    (fun _ _ _ => 0) (fun _ _ => .fromParts (.value ⟨0, 0⟩ 0)) (fun _ _ => .value ⟨0, 0⟩ 1)
    (fun _ => 5) [] fun _ _ => rfl

end Mpc

end Hmpc.Expr
