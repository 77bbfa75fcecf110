/-
# Hmpc.Ints.Literals -- integer literals of any length

`operator""_int` reads the characters of a literal at compile time. Binary and hexadecimal digits
are read twice: forwards, for the number of bits, and backwards, to write each digit into the limb
it belongs to. Decimal digits are read once, with a result that grows. A limb that the result does
not have fails a static assertion.
-/
import Mathlib.Data.Nat.Digits.Lemmas
import Hmpc.Core.BitScan
import Hmpc.Ints.Bigint

namespace Hmpc.Ints.Literals

open Hmpc.Core Hmpc.Lib.Limbs Hmpc.Lib.Digits Hmpc.Lib.BitScan MaybeConstant SpanType

variable {w : ℕ}

/-! ## Characters -/

/-- The digit separator, a single quote. -/
def separator : Char := Char.ofNat 39

/-- `first <= c and c <= last` -/
def Between (first last c : Char) : Prop := first.toNat ≤ c.toNat ∧ c.toNat ≤ last.toNat

instance decidableBetween (first last c : Char) : Decidable (Between first last c) :=
  inferInstanceAs (Decidable (_ ∧ _))

/-- What a digit stands for. -/
def digitValue (c : Char) : ℕ :=
  if Between '0' '9' c then c.toNat - '0'.toNat
  else if Between 'a' 'f' c then c.toNat - 'a'.toNat + 10
  else c.toNat - 'A'.toNat + 10

/-- The digits of a base, up to sixteen. -/
def IsDigit (base : ℕ) (c : Char) : Prop :=
  (Between '0' '9' c ∨ Between 'a' 'f' c ∨ Between 'A' 'F' c) ∧ digitValue c < base

/-- Digits, with separators between them. -/
structure Digits (base : ℕ) (string : List Char) : Prop where
  chars : ∀ c ∈ string, c = separator ∨ IsDigit base c
  first : ∃ c, string.head? = some c ∧ IsDigit base c
  last : ∃ c, string.getLast? = some c ∧ IsDigit base c

/-- The digits without the separators. -/
def significant (string : List Char) : List Char := string.filter (· ≠ separator)

/-- The number that is denoted. -/
def number (base : ℕ) (string : List Char) : ℕ :=
  Nat.ofDigits base ((significant string).map digitValue).reverse

/-- A literal, its base, and its digits. -/
inductive Literal : List Char → ℕ → List Char → Prop
  | binary {b : Char} {digits : List Char} (hb : b = 'b' ∨ b = 'B') (h : Digits 2 digits) :
      Literal ('0' :: b :: digits) 2 digits
  | hex {x : Char} {digits : List Char} (hx : x = 'x' ∨ x = 'X') (h : Digits 16 digits) :
      Literal ('0' :: x :: digits) 16 digits
  | decimal {digits : List Char} (h : Digits 10 digits) : Literal digits 10 digits

/-! ## Parsers -/

/-- `result[limb] |= value` -/
def orInto (limbs : List (BitVec w)) (limb : ℕ) (value : BitVec w) : Option (List (BitVec w)) :=
  if limb < limbs.length then some (limbs.set limb (limbs.getD limb 0 ||| value)) else none

/-- The forward scan of `parse_binary_literal`. -/
def binarySize (size : ℕ) (c : Char) : Option ℕ :=
  if c = '0' then some (if size = 0 then size else size + 1)
  else if c = '1' then some (size + 1)
  else if c = separator then some size
  else none

/-- The reverse scan of `parse_binary_literal`, which has read the end of the string first. -/
def binaryLimbs (zeros : List (BitVec w)) : List Char → Option (List (BitVec w) × ℕ)
  | [] => some (zeros, 0)
  | c :: string => do
    let (limbs, j) ← binaryLimbs zeros string
    if c = '0' then some (limbs, j + 1)
    else if c = '1' then do
      let limbs ← orInto limbs (j / w) ((1 : BitVec w) <<< (j % w))
      some (limbs, j + 1)
    else some (limbs, j)

/-- `parse_binary_literal` -/
def parseBinaryLiteral (w : ℕ) (string : List Char) : Option (BitSpan w) := do
  let bitSize ← string.foldlM binarySize 0
  let (limbs, _) ← binaryLimbs (List.replicate (limbSizeFor w bitSize) 0) string
  some ⟨⟨bitSize, .unsigned, .normal⟩, limbs⟩

/-- The forward scan of `parse_hex_literal`. -/
def hexSize (size : ℕ) (c : Char) : Option ℕ :=
  if c = '0' then some (if size = 0 then size else size + 4)
  else if c = '1' then some (if size = 0 then size + 1 else size + 4)
  else if c ∈ ['2', '3'] then some (if size = 0 then size + 2 else size + 4)
  else if c ∈ ['4', '5', '6', '7'] then some (if size = 0 then size + 3 else size + 4)
  else if c ∈ ['8', '9', 'a', 'A', 'b', 'B', 'c', 'C', 'd', 'D', 'e', 'E', 'f', 'F'] then
    some (size + 4)
  else if c = separator then some size
  else none

/-- The reverse scan of `parse_hex_literal`. Zeros are written as well. -/
def hexLimbs (zeros : List (BitVec w)) : List Char → Option (List (BitVec w) × ℕ)
  | [] => some (zeros, 0)
  | c :: string => do
    let (limbs, j) ← hexLimbs zeros string
    let write (digit : ℕ) := do
      let limbs ← orInto limbs (j / w) (BitVec.ofNat w digit <<< (j % w))
      some (limbs, j + 4)
    if Between '0' '9' c then write (c.toNat - '0'.toNat)
    else if Between 'a' 'f' c then write (c.toNat - 'a'.toNat + 10)
    else if Between 'A' 'F' c then write (c.toNat - 'A'.toNat + 10)
    else some (limbs, j)

/-- `parse_hex_literal` -/
def parseHexLiteral (w : ℕ) (string : List Char) : Option (BitSpan w) := do
  let bitSize ← string.foldlM hexSize 0
  if 4 ≤ w ∧ w % 4 = 0 then
    let (limbs, _) ← hexLimbs (List.replicate (limbSizeFor w bitSize) 0) string
    some ⟨⟨bitSize, .unsigned, .normal⟩, limbs⟩
  else none

/-- A constant `ubigint<bits>{value}`. -/
def constantInteger (w bits value : ℕ) : BitArray w :=
  (SpanType.mk bits .unsigned .normal).array w value

/-- The scan of `parse_decimal_literal`. -/
def decimalStep (memory : ℕ → BitVec w) (result : BitArray w) (c : Char) : Option (BitArray w) :=
  let ten := constantInteger w 4 10
  if c = '0' then some (Bigint.multiply memory result ten)
  else if Between '1' '9' c then
    let digit := c.toNat - '0'.toNat
    some (Bigint.add memory (Bigint.multiply memory result ten)
      (constantInteger w digit.size digit))
  else if c = separator then some result
  else none

/-- `parse_decimal_literal` -/
def parseDecimalLiteral (memory : ℕ → BitVec w) (string : List Char) : Option (BitSpan w) := do
  let largeResult ← string.foldlM (decimalStep memory) (constantInteger w 0 0)
  let t : SpanType := ⟨Num.bitWidth largeResult.toBitSpan, .unsigned, .normal⟩
  some ⟨t, Num.bitCopy t largeResult.span.source (Bigint.uninitialized memory (t.limbSize w))⟩

/-- `parse_literal`: a prefix, and something behind it. -/
def parseLiteral (memory : ℕ → BitVec w) (string : List Char) : Option (BitSpan w) :=
  match string with
  | '0' :: c :: substring =>
    if c = 'b' ∨ c = 'B' then
      if substring = [] then none else parseBinaryLiteral w substring
    else if c = 'x' ∨ c = 'X' then
      if substring = [] then none else parseHexLiteral w substring
    else parseDecimalLiteral memory string
  | _ => parseDecimalLiteral memory string

/-! ## The number of a literal -/

/-- The integer of a number: it has no more bits than it takes. -/
def integer (w n : ℕ) : BitSpan w :=
  ⟨⟨n.size, .unsigned, .normal⟩, ofValue (limbSizeFor w n.size) n⟩

/-- Characters that are digits or separators, in any order. -/
def Scannable (base : ℕ) (string : List Char) : Prop :=
  ∀ c ∈ string, c = separator ∨ IsDigit base c

theorem not_isDigit_separator (base : ℕ) : ¬ IsDigit base separator := by
  rintro ⟨h | h | h, -⟩ <;> exact absurd h (by decide)

section

variable {base : ℕ} {c : Char} {string : List Char}

theorem number_separator_cons : number base (separator :: string) = number base string := by
  simp [number, significant]

theorem number_append_separator : number base (string ++ [separator]) = number base string := by
  simp [number, significant]

theorem significant_cons (h : IsDigit base c) :
    significant (c :: string) = c :: significant string := by
  have hne : c ≠ separator := fun heq => not_isDigit_separator base (heq ▸ h)
  simp [significant, hne]

/-- A digit at the front counts as many times as there are numbers of the digits behind it. -/
theorem number_cons (h : IsDigit base c) : number base (c :: string) =
    digitValue c * base ^ (significant string).length + number base string := by
  rw [number, significant_cons h, List.map_cons, List.reverse_cons, Nat.ofDigits_append,
    Nat.ofDigits_singleton, List.length_reverse, List.length_map, Nat.add_comm, Nat.mul_comm]
  rfl

theorem number_append (h : IsDigit base c) :
    number base (string ++ [c]) = base * number base string + digitValue c := by
  have hne : c ≠ separator := fun heq => not_isDigit_separator base (heq ▸ h)
  have happend : significant (string ++ [c]) = significant string ++ [c] := by
    simp [significant, hne]
  rw [number, happend, List.map_append, List.reverse_append, List.map_singleton,
    List.reverse_singleton, List.singleton_append, Nat.ofDigits_cons, Nat.add_comm]
  rfl

theorem number_lt (hbase : 1 < base) (h : Scannable base string) :
    number base string < base ^ (significant string).length := by
  have hlt := Nat.ofDigits_lt_base_pow_length (b := base) hbase
    (l := ((significant string).map digitValue).reverse) (by
      intro d hd
      obtain ⟨c, hc, rfl⟩ := List.mem_map.mp (List.mem_reverse.mp hd)
      obtain ⟨hmem, hne⟩ := List.mem_filter.mp hc
      rcases h c hmem with heq | hdigit
      · exact absurd heq (by simpa using hne)
      · exact hdigit.2)
  rwa [List.length_reverse, List.length_map] at hlt

theorem Scannable.tail (h : Scannable base (c :: string)) : Scannable base string :=
  fun d hd => h d (List.mem_cons_of_mem _ hd)

end

/-! ## Digits -/

instance decidableIsDigit (base : ℕ) (c : Char) : Decidable (IsDigit base c) :=
  inferInstanceAs (Decidable (_ ∧ _))

/-- There are few digits. -/
theorem forall_isDigit {base : ℕ} {P : Char → Prop}
    (h : ∀ n < 128, IsDigit base (Char.ofNat n) → P (Char.ofNat n)) {c : Char}
    (hc : IsDigit base c) : P c := by
  have hlt : c.toNat < 128 := by
    rcases hc.1 with hrange | hrange | hrange <;> exact hrange.2.trans_lt (by decide)
  have hP := h c.toNat hlt
  rw [Char.ofNat_toNat] at hP
  exact hP hc

def hexDigits : List Char := ['0', '1', '2', '3', '4', '5', '6', '7', '8', '9', 'a', 'b', 'c', 'd',
  'e', 'f', 'A', 'B', 'C', 'D', 'E', 'F']

theorem isDigit_two {c : Char} (h : IsDigit 2 c) : c = '0' ∨ c = '1' :=
  forall_isDigit (P := fun c => c = '0' ∨ c = '1') (by decide +kernel) h

theorem isDigit_ten {c : Char} (h : IsDigit 10 c) : c = '0' ∨ Between '1' '9' c :=
  forall_isDigit (P := fun c => c = '0' ∨ Between '1' '9' c) (by decide +kernel) h

theorem isDigit_sixteen {c : Char} (h : IsDigit 16 c) : c ∈ hexDigits :=
  forall_isDigit (by decide +kernel) h

/-- What a digit adds to the number of bits: its own when it is the first one that is not zero. -/
theorem hexSize_eq {c : Char} (h : IsDigit 16 c) (n : ℕ) :
    hexSize n.size c = some (16 * n + digitValue c).size := by
  have hmem := isDigit_sixteen h
  rcases Nat.eq_zero_or_pos n with rfl | hpos
  · have hfirst : hexSize 0 c = some (digitValue c).size :=
      forall_isDigit (P := fun c => hexSize 0 c = some (digitValue c).size) (by decide +kernel) h
    rw [Nat.size_zero, hfirst, Nat.mul_zero, Nat.zero_add]
  · obtain ⟨k, hk⟩ : ∃ k, n.size = k + 1 :=
      Nat.exists_eq_succ_of_ne_zero (Nat.size_pos.mpr hpos).ne'
    have hnext : ∀ c ∈ hexDigits, hexSize (k + 1) c = some (k + 1 + 4) := by
      simp [hexDigits, hexSize]
    have hsize : (digitValue c + 16 * n).size = n.size + 4 := size_add_mul (k := 4) h.2 hpos
    rw [Nat.add_comm, hsize, hk, hnext c hmem]

theorem binarySize_eq {c : Char} (h : IsDigit 2 c) (n : ℕ) :
    binarySize n.size c = some (2 * n + digitValue c).size := by
  rcases Nat.eq_zero_or_pos n with rfl | hpos
  · rcases isDigit_two h with rfl | rfl <;> decide
  · have hpos' := (Nat.size_pos.mpr hpos).ne'
    have hsize : (digitValue c + 2 * n).size = n.size + 1 := size_add_mul (k := 1) h.2 hpos
    rw [Nat.add_comm, hsize]
    rcases isDigit_two h with rfl | rfl <;> simp [binarySize, hpos']

/-- A forward scan: what is kept from the number so far to the number with another digit. -/
theorem foldlM_number {base : ℕ} {σ : Type} {R : ℕ → σ → Prop} {step : σ → Char → Option σ}
    {start : σ} (hstart : R 0 start) (hseparator : ∀ s, step s separator = some s)
    (hdigit : ∀ c, IsDigit base c → ∀ n s, R n s →
      ∃ s', step s c = some s' ∧ R (base * n + digitValue c) s')
    {string : List Char} (h : Scannable base string) :
    ∃ s, string.foldlM step start = some s ∧ R (number base string) s := by
  induction string using List.reverseRecOn with
  | nil => exact ⟨start, rfl, hstart⟩
  | append_singleton string c ih =>
      obtain ⟨s, hs, hR⟩ := ih fun d hd => h d (List.mem_append_left _ hd)
      rw [List.foldlM_append, hs, Option.bind_eq_bind, Option.bind_some]
      rcases h c (List.mem_append_right _ List.mem_cons_self) with rfl | hc
      · refine ⟨s, ?_, by rwa [number_append_separator]⟩
        simp [hseparator]
      · obtain ⟨s', hs', hR'⟩ := hdigit c hc _ s hR
        refine ⟨s', ?_, by rwa [number_append hc]⟩
        simp [hs']

theorem foldlM_binarySize {string : List Char} (h : Scannable 2 string) :
    string.foldlM binarySize 0 = some (number 2 string).size := by
  obtain ⟨s, hs, rfl⟩ := foldlM_number (R := fun n s => s = n.size) Nat.size_zero.symm
    (fun _ => rfl) (fun c hc n s hn => ⟨_, hn ▸ binarySize_eq hc n, rfl⟩) h
  exact hs

theorem foldlM_hexSize {string : List Char} (h : Scannable 16 string) :
    string.foldlM hexSize 0 = some (number 16 string).size := by
  obtain ⟨s, hs, rfl⟩ := foldlM_number (R := fun n s => s = n.size) Nat.size_zero.symm
    (fun _ => rfl) (fun c hc n s hn => ⟨_, hn ▸ hexSize_eq hc n, rfl⟩) h
  exact hs

/-! ## Limbs -/

/-- There is a limb for each bit of a number. -/
theorem lt_pow_limbSizeFor [NeZero w] (n : ℕ) : n < (2 ^ w) ^ limbSizeFor w n.size := by
  rw [← pow_mul]
  exact (Nat.lt_size_self n).trans_le
    (Nat.pow_le_pow_right two_pos ((limbSizeFor_le_iff _ _).mp le_rfl))

/-- The limbs of a number of their value. -/
theorem eq_integer {n : ℕ} {l : List (BitVec w)} (hlen : l.length = limbSizeFor w n.size)
    (hvalue : value l = n) : (⟨⟨n.size, .unsigned, .normal⟩, l⟩ : BitSpan w) = integer w n := by
  rw [integer, ← hlen, ← hvalue, ofValue_value]

/-- A digit is written above all others. -/
theorem orInto_eq {l : List (BitVec w)} {j d : ℕ} (hlt : value l < 2 ^ j)
    (hj : j / w < l.length) (hd : d * 2 ^ (j % w) < 2 ^ w) :
    ∃ l', orInto l (j / w) (BitVec.ofNat w d <<< (j % w)) = some l' ∧ l'.length = l.length ∧
      value l' = d * 2 ^ j + value l := by
  have hdigit : (BitVec.ofNat w d).toNat = d := by
    rw [BitVec.toNat_ofNat]
    exact Nat.mod_eq_of_lt ((Nat.le_mul_of_pos_right d (Nat.two_pow_pos _)).trans_lt hd)
  have hvalue := value_set_or hlt hj (v := BitVec.ofNat w d) (by rwa [hdigit])
  rw [hdigit, Nat.add_comm] at hvalue
  exact ⟨_, if_pos hj, List.length_set, hvalue⟩

section

variable [NeZero w] {zeros : List (BitVec w)} (hzeros : value zeros = 0)
include hzeros

/-- Ones are inside the limbs when the number is. -/
theorem binaryLimbs_eq {string : List Char} (h : Scannable 2 string)
    (hlt : number 2 string < (2 ^ w) ^ zeros.length) :
    ∃ limbs, binaryLimbs zeros string = some (limbs, (significant string).length) ∧
      limbs.length = zeros.length ∧ value limbs = number 2 string := by
  induction string with
  | nil => exact ⟨zeros, rfl, rfl, hzeros⟩
  | cons c string ih =>
      have hrest := number_lt (Nat.lt_succ_self 1) h.tail
      rcases h c List.mem_cons_self with rfl | hc
      · rw [number_separator_cons] at hlt ⊢
        obtain ⟨limbs, hlimbs, hlen, hvalue⟩ := ih h.tail hlt
        refine ⟨limbs, ?_, hlen, hvalue⟩
        rw [binaryLimbs, hlimbs]
        rfl
      · rw [number_cons hc] at hlt ⊢
        obtain ⟨limbs, hlimbs, hlen, hvalue⟩ := ih h.tail (by omega)
        rw [significant_cons hc, List.length_cons, binaryLimbs, hlimbs, Option.bind_eq_bind,
          Option.bind_some]
        dsimp only
        rcases isDigit_two hc with rfl | rfl
        · have hzero : digitValue '0' = 0 := by decide
          rw [if_pos rfl, hzero, Nat.zero_mul, Nat.zero_add]
          exact ⟨limbs, rfl, hlen, hvalue⟩
        · have hone : digitValue '1' = 1 := by decide
          have hwpos := Nat.pos_of_ne_zero (NeZero.ne w)
          rw [hone] at hlt ⊢
          -- the position of the digit is below the number
          have hroom : (significant string).length / w < limbs.length := by
            rw [hlen, Nat.div_lt_iff_lt_mul hwpos, Nat.mul_comm,
              ← Nat.pow_lt_pow_iff_right (a := 2) (by omega), pow_mul]
            omega
          obtain ⟨limbs', hor, hlen', hvalue'⟩ := orInto_eq (d := 1) (hvalue ▸ hrest) hroom
            (by rw [Nat.one_mul]; exact Nat.pow_lt_pow_right (by omega) (Nat.mod_lt _ hwpos))
          rw [if_neg (by decide), if_pos rfl]
          refine ⟨limbs', ?_, hlen'.trans hlen, hvalue'.trans (by rw [hvalue])⟩
          show (orInto limbs _ (BitVec.ofNat w 1 <<< _)).bind _ = _
          rw [hor]
          rfl

/-- Each digit must have a limb, also when it is zero. -/
theorem hexLimbs_eq (hw : 4 ≤ w) (hdvd : w % 4 = 0) {string : List Char}
    (h : Scannable 16 string) :
    ((∀ p < (significant string).length, 4 * p / w < zeros.length) →
      ∃ limbs, hexLimbs zeros string = some (limbs, 4 * (significant string).length) ∧
        limbs.length = zeros.length ∧ value limbs = number 16 string) ∧
    ((∃ p < (significant string).length, zeros.length ≤ 4 * p / w) →
      hexLimbs zeros string = none) := by
  induction string with
  | nil =>
      refine ⟨fun _ => ⟨zeros, rfl, rfl, hzeros⟩, ?_⟩
      rintro ⟨p, hp, -⟩
      exact absurd hp (Nat.not_lt_zero p)
  | cons c string ih =>
      have hrest := number_lt (show 1 < 16 by omega) h.tail
      obtain ⟨ihroom, ihnone⟩ := ih h.tail
      rcases h c List.mem_cons_self with rfl | hc
      · have hstep : hexLimbs zeros (separator :: string) = hexLimbs zeros string := by
          rw [hexLimbs]
          cases hexLimbs zeros string <;> rfl
        rw [number_separator_cons, hstep]
        exact ⟨ihroom, ihnone⟩
      · have hstep : hexLimbs zeros (c :: string) = (hexLimbs zeros string).bind fun s =>
            (orInto s.1 (s.2 / w) (BitVec.ofNat w (digitValue c) <<< (s.2 % w))).bind
              fun limbs => some (limbs, s.2 + 4) := by
          rw [hexLimbs]
          cases hexLimbs zeros string with
          | none => rfl
          | some s =>
              dsimp only [Option.bind_eq_bind, Option.bind_some]
              unfold digitValue
              split_ifs with hten hlower hupper
              · rfl
              · rfl
              · rfl
              · exact absurd hc.1 (by simp [hten, hlower, hupper])
        rw [number_cons hc, significant_cons hc, List.length_cons, hstep]
        constructor
        · intro hroom
          obtain ⟨limbs, hlimbs, hlen, hvalue⟩ := ihroom fun p hp => hroom p (by omega)
          have hbase : 16 ^ (significant string).length = 2 ^ (4 * (significant string).length) :=
            (pow_mul 2 4 _).symm
          -- four bits never cross a limb
          have hbits : digitValue c * 2 ^ (4 * (significant string).length % w) < 2 ^ w := by
            obtain ⟨k, rfl⟩ := Nat.dvd_of_mod_eq_zero hdvd
            have hmod := Nat.mod_lt (significant string).length (show 0 < k by omega)
            calc digitValue c * 2 ^ (4 * (significant string).length % (4 * k))
                < 2 ^ 4 * 2 ^ (4 * (significant string).length % (4 * k)) :=
                  Nat.mul_lt_mul_of_pos_right hc.2 (Nat.two_pow_pos _)
              _ = 2 ^ (4 + 4 * ((significant string).length % k)) := by
                  rw [Nat.mul_mod_mul_left, pow_add]
              _ ≤ 2 ^ (4 * k) := Nat.pow_le_pow_right (by omega) (by omega)
          obtain ⟨limbs', hor, hlen', hvalue'⟩ := orInto_eq (l := limbs) (hvalue ▸ hbase ▸ hrest)
            (hlen ▸ hroom _ (Nat.lt_succ_self _)) hbits
          refine ⟨limbs', ?_, hlen'.trans hlen, by rw [hvalue', hvalue, hbase]⟩
          rw [hlimbs, Option.bind_some, hor, Option.bind_some, Nat.mul_add]
        · rintro ⟨p, hp, hnone⟩
          by_cases hroom : ∀ q < (significant string).length, 4 * q / w < zeros.length
          · -- it is this digit that has no limb
            obtain ⟨limbs, hlimbs, hlen, -⟩ := ihroom hroom
            obtain rfl : p = (significant string).length := by
              by_contra hne
              exact absurd (hroom p (by omega)) (Nat.not_lt.mpr hnone)
            rw [hlimbs, Option.bind_some, orInto, if_neg (Nat.not_lt.mpr (hlen.le.trans hnone)),
              Option.bind_none]
          · push Not at hroom
            rw [ihnone hroom, Option.bind_none]

end

/-! ## Decimal literals -/

/-- A normal integer without sign. -/
structure IsNumber (n : ℕ) (x : BitArray w) : Prop where
  normalized : Bigint.Normalized x
  unsigned : x.type.signedness = .unsigned
  toInt_eq : x.toInt = n

section

variable [NeZero w] {m n : ℕ} {x y : BitArray w}

theorem IsNumber.of_inRange {t : SpanType} (hu : t.signedness = .unsigned) (h : t.InRange n) :
    IsNumber n (t.array w n) where
  normalized := ⟨fun hs => absurd (hu.symm.trans hs) Signedness.noConfusion, t.isNormal_array h⟩
  unsigned := hu
  toInt_eq := (t.toInt_array n).trans h

theorem isNumber_constantInteger {bits : ℕ} (h : n < 2 ^ bits) :
    IsNumber n (constantInteger w bits n) :=
  .of_inRange rfl ((inRange_unsigned _ rfl).mpr
    ⟨Int.natCast_nonneg n, show (n : ℤ) < 2 ^ bits by exact_mod_cast h⟩)

variable (memory : ℕ → BitVec w) (hx : IsNumber m x) (hy : IsNumber n y)
include hx hy

theorem IsNumber.multiply : IsNumber (m * n) (Bigint.multiply memory x y) := by
  have hrange := Bigint.multiply_inRange hx.unsigned hy.unsigned
  have hcast : x.toInt * y.toInt = (m * n : ℕ) := by
    rw [hx.toInt_eq, hy.toInt_eq]
    push_cast
    rfl
  rw [hcast] at hrange
  rw [Bigint.multiply_eq_array memory hx.normalized hy.normalized hx.unsigned hy.unsigned, hcast]
  refine .of_inRange ?_ hrange
  simp [Bigint.multiplyType, hx.unsigned, hy.unsigned, commonSignedness]

theorem IsNumber.add : IsNumber (m + n) (Bigint.add memory x y) := by
  have hrange := (Bigint.add_inRange_iff hx.normalized hy.normalized).mpr
    (.inl (hx.unsigned.trans hy.unsigned.symm))
  have hcast : x.toInt + y.toInt = (m + n : ℕ) := by
    rw [hx.toInt_eq, hy.toInt_eq]
    push_cast
    rfl
  rw [hcast] at hrange
  rw [Bigint.add_eq_array memory hx.normalized hy.normalized, hcast]
  refine .of_inRange ?_ hrange
  simp [Bigint.addType, hx.unsigned, hy.unsigned, commonSignedness]

end

section

variable [NeZero w] (memory : ℕ → BitVec w)

theorem decimalStep_eq {c : Char} (hc : IsDigit 10 c) {n : ℕ} {x : BitArray w}
    (hx : IsNumber n x) :
    ∃ x', decimalStep memory x c = some x' ∧ IsNumber (10 * n + digitValue c) x' := by
  have hten : IsNumber 10 (constantInteger w 4 10) := isNumber_constantInteger (by decide)
  have hproduct := hx.multiply memory hten
  rw [Nat.mul_comm] at hproduct
  rcases isDigit_ten hc with rfl | hrange
  · exact ⟨_, rfl, hproduct⟩
  · have hlow : '0'.toNat ≤ c.toNat := (show '0'.toNat ≤ '1'.toNat by decide).trans hrange.1
    have hvalue : digitValue c = c.toNat - '0'.toNat := if_pos ⟨hlow, hrange.2⟩
    have hzero : c ≠ '0' := by
      rintro rfl
      exact absurd hrange (by decide)
    rw [decimalStep, if_neg hzero, if_pos hrange, hvalue]
    exact ⟨_, rfl, hproduct.add memory (isNumber_constantInteger (Nat.lt_size_self _))⟩

/-- Decimal literals always compile. -/
theorem parseDecimalLiteral_eq {string : List Char} (h : Scannable 10 string) :
    parseDecimalLiteral memory string = some (integer w (number 10 string)) := by
  have hzero : IsNumber 0 (constantInteger w 0 0) :=
    isNumber_constantInteger (show 0 < 2 ^ 0 by decide)
  obtain ⟨x, hx, hnumber⟩ := foldlM_number (R := IsNumber) hzero (fun _ => rfl)
    (fun c hc n x hx => decimalStep_eq memory hc hx) h
  generalize number 10 string = n at hnumber ⊢
  have hwidth : Num.bitWidth x.toBitSpan = n.size := by
    rw [Num.bitWidth_eq hnumber.normalized.readable,
      x.storedInt_eq_toInt hnumber.normalized.signed_pos hnumber.normalized.isNormal,
      hnumber.toInt_eq, if_neg (by omega), Int.toNat_natCast]
  have hrange : (SpanType.mk n.size .unsigned .normal).InRange n :=
    (inRange_unsigned _ rfl).mpr
      ⟨Int.natCast_nonneg n, show (n : ℤ) < 2 ^ n.size by exact_mod_cast Nat.lt_size_self n⟩
  have hdenotes := hnumber.normalized.denotes
  rw [hnumber.toInt_eq] at hdenotes
  have hcopy := Num.bitCopy_eq (t := ⟨n.size, .unsigned, .normal⟩)
    (Bigint.length_uninitialized memory _) (hdenotes.reads _ _)
  rw [parseDecimalLiteral, hx, Option.bind_eq_bind, Option.bind_some]
  dsimp only
  rw [hwidth, hcopy, eq_integer (length_image _ _)]
  exact_mod_cast value_image_of_inRange _ rfl hrange

/-- Binary literals always compile. -/
theorem parseBinaryLiteral_eq {string : List Char} (h : Scannable 2 string) :
    parseBinaryLiteral w string = some (integer w (number 2 string)) := by
  rw [parseBinaryLiteral, foldlM_binarySize h, Option.bind_eq_bind, Option.bind_some]
  generalize hzeros : List.replicate (limbSizeFor w (number 2 string).size) (0 : BitVec w) = zeros
  have hlength : zeros.length = limbSizeFor w (number 2 string).size := by
    rw [← hzeros, List.length_replicate]
  obtain ⟨limbs, hlimbs, hlen, hvalue⟩ :=
    binaryLimbs_eq (hzeros ▸ value_replicate_zero _) h (hlength ▸ lt_pow_limbSizeFor _)
  rw [hlimbs, Option.bind_eq_bind, Option.bind_some, ← eq_integer (hlen.trans hlength) hvalue]

/-- Hexadecimal literals compile when the first digit, which may be a zero, has a limb. -/
theorem parseHexLiteral_eq (hw : 4 ≤ w) (hdvd : w % 4 = 0) {string : List Char}
    (h : Scannable 16 string) (hdigits : 0 < (significant string).length) :
    parseHexLiteral w string = if 4 * ((significant string).length - 1) / w <
        limbSizeFor w (number 16 string).size
      then some (integer w (number 16 string)) else none := by
  rw [parseHexLiteral, foldlM_hexSize h, Option.bind_eq_bind, Option.bind_some,
    if_pos ⟨hw, hdvd⟩]
  generalize hzeros : List.replicate (limbSizeFor w (number 16 string).size) (0 : BitVec w) = zeros
  have hlength : zeros.length = limbSizeFor w (number 16 string).size := by
    rw [← hzeros, List.length_replicate]
  obtain ⟨hroom, hnone⟩ := hexLimbs_eq (hzeros ▸ value_replicate_zero _) hw hdvd h
  rw [← hlength]
  by_cases hfirst : 4 * ((significant string).length - 1) / w < zeros.length
  · -- all other digits are below the first one
    obtain ⟨limbs, hlimbs, hlen, hvalue⟩ := hroom fun p hp =>
      (Nat.div_le_div_right (show 4 * p ≤ 4 * ((significant string).length - 1) by omega)).trans_lt
        hfirst
    rw [if_pos hfirst, hlimbs, Option.bind_eq_bind, Option.bind_some,
      ← eq_integer (hlen.trans hlength) hvalue]
  · rw [if_neg hfirst, hnone ⟨_, by omega, Nat.not_lt.mp hfirst⟩]
    rfl

/-- A literal has digits, and the first one is not a separator. -/
theorem Digits.length_pos {base : ℕ} {string : List Char} (h : Digits base string) :
    0 < (significant string).length := by
  obtain ⟨c, hc, hdigit⟩ := h.first
  cases string with
  | nil => exact absurd hc (by simp)
  | cons d string =>
      obtain rfl : d = c := by simpa using hc
      rw [significant_cons hdigit, List.length_cons]
      exact Nat.succ_pos _

theorem Digits.ne_nil {base : ℕ} {string : List Char} (h : Digits base string) : string ≠ [] := by
  rintro rfl
  exact absurd h.length_pos (Nat.lt_irrefl 0)

omit [NeZero w] in
/-- A decimal literal has no prefix. -/
theorem parseLiteral_decimal {string : List Char} (h : Digits 10 string) :
    parseLiteral memory string = parseDecimalLiteral memory string := by
  have hchars : ∀ c ∈ string, c ∉ ['b', 'B', 'x', 'X'] := by
    intro c hc hmem
    rcases h.chars c hc with rfl | hdigit
    · exact absurd hmem (by decide)
    · exact forall_isDigit (P := fun c => c ∉ ['b', 'B', 'x', 'X']) (by decide +kernel) hdigit hmem
  unfold parseLiteral
  split
  · next c substring =>
      have hc := hchars c (by simp)
      simp only [List.mem_cons, List.not_mem_nil, or_false, not_or] at hc
      rw [if_neg (by tauto), if_neg (by tauto)]
  · rfl

end

/-- **Literals** compile to the integer of their number, except for hexadecimal ones whose leading
zeros have no limb. -/
theorem parseLiteral_iff {string digits : List Char} {base : ℕ}
    (h : Literal string base digits) (memory : ℕ → BitVec 32) :
    parseLiteral memory string = some (integer 32 (number base digits)) ↔
      (base = 16 → 4 * ((significant digits).length - 1) / 32 <
        limbSizeFor 32 (number 16 digits).size) := by
  have : NeZero 32 := ⟨by decide⟩
  cases h with
  | @binary b _ hb h =>
      have hparse : parseLiteral memory ('0' :: b :: digits) = parseBinaryLiteral 32 digits := by
        rw [parseLiteral, if_pos hb, if_neg h.ne_nil]
      rw [hparse, parseBinaryLiteral_eq h.chars]
      simp
  | @hex x _ hx h =>
      have hne : ¬ (x = 'b' ∨ x = 'B') := by
        rcases hx with rfl | rfl <;> decide
      have hparse : parseLiteral memory ('0' :: x :: digits) = parseHexLiteral 32 digits := by
        rw [parseLiteral, if_neg hne, if_pos hx, if_neg h.ne_nil]
      rw [hparse, parseHexLiteral_eq (by decide) (by decide) h.chars h.length_pos]
      constructor
      · intro hsome _
        -- a leading zero is written to a limb that is not there
        by_contra hroom
        rw [if_neg hroom] at hsome
        exact absurd hsome (by simp)
      · intro hroom
        rw [if_pos (hroom rfl)]
  | decimal h =>
      rw [parseLiteral_decimal memory h, parseDecimalLiteral_eq memory h.chars]
      simp

/-- The literal `1'000`. -/
theorem parseLiteral_thousand :
    parseLiteral (fun _ => 7) ['1', separator, '0', '0', '0'] = some (integer 32 1000) :=
  have h : Digits 10 ['1', separator, '0', '0', '0'] :=
    ⟨List.forall_iff_forall_mem.mp (by decide), ⟨'1', rfl, by decide⟩, ⟨'0', rfl, by decide⟩⟩
  (parseLiteral_iff (.decimal h) _).mpr (by decide)

/-- The literal `0x000000001` does not compile. -/
theorem parseLiteral_leadingZeros :
    Literal ['0', 'x', '0', '0', '0', '0', '0', '0', '0', '0', '1'] 16
      ['0', '0', '0', '0', '0', '0', '0', '0', '1'] ∧
    parseLiteral (fun _ => (0 : BitVec 32))
      ['0', 'x', '0', '0', '0', '0', '0', '0', '0', '0', '1'] = none :=
  ⟨.hex (.inl rfl) ⟨List.forall_iff_forall_mem.mp (by decide), ⟨'0', rfl, by decide⟩,
    ⟨'1', rfl, by decide⟩⟩, by decide +kernel⟩

end Hmpc.Ints.Literals
