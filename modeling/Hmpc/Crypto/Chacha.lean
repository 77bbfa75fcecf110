/-
# Hmpc.Crypto.Chacha -- the random engine: ChaCha with a nonce and a counter

The state is sixteen words: constants, key, counter and nonce. A call returns the block of the
state and adds one to the counter, in place and modulo what the counter can hold. `stateAt` is the
state with a given counter, so that the blocks of one key and nonce are those of `stateAt 0`,
`stateAt 1` and so on, and the stream repeats when the counter does.
-/
import Hmpc.Core.LimbSpan

namespace Hmpc.Crypto

open Hmpc.Core Hmpc.Lib.Limbs Hmpc.Lib.Digits MaybeConstant SpanType

/-- `uint32` -/
abbrev Word := BitVec 32

/-- `chacha_quarter_round` -/
def chachaQuarterRound (a b c d : Word) : Word × Word × Word × Word :=
  let a := a + b
  let d := (d ^^^ a).rotateLeft 16
  let c := c + d
  let b := (b ^^^ c).rotateLeft 12
  let a := a + b
  let d := (d ^^^ a).rotateLeft 8
  let c := c + d
  let b := (b ^^^ c).rotateLeft 7
  (a, b, c, d)

/-- A quarter round on four words of the state. -/
def quarterRoundAt (i j k l : ℕ) (state : List Word) : List Word :=
  let (a, b, c, d) := chachaQuarterRound (state.getD i 0) (state.getD j 0) (state.getD k 0)
    (state.getD l 0)
  (((state.set i a).set j b).set k c).set l d

/-- `chacha_double_round`: the columns, then the diagonals. -/
def chachaDoubleRound (state : List Word) : List Word :=
  let state := (List.range 4).foldl (fun s i => quarterRoundAt i (i + 4) (i + 8) (i + 12) s) state
  let state := quarterRoundAt 0 5 10 15 state
  let state := quarterRoundAt 1 6 11 12 state
  let state := quarterRoundAt 2 7 8 13 state
  quarterRoundAt 3 4 9 14 state

/-- The template parameters of `chacha`. -/
structure ChachaType where
  rounds : ℕ
  nonceSize : ℕ
  counterSize : ℕ
  rounds_ge : 8 ≤ rounds
  rounds_even : rounds % 2 = 0
  nonceSize_pos : 0 < nonceSize
  counterSize_pos : 0 < counterSize
  size_eq : counterSize + nonceSize = 4

/-- `chacha20` -/
def chacha20 : ChachaType := ⟨20, 3, 1, by decide, by decide, by decide, by decide, by decide⟩

namespace ChachaType

variable (t : ChachaType)

def keySize : ℕ := 8
def constantSize : ℕ := 4
def blockSize : ℕ := 16

/-- `chacha_param` -/
structure Param where
  key : List Word
  nonce : List Word
  counter : List Word
  key_size : key.length = keySize
  nonce_size : nonce.length = t.nonceSize
  counter_size : counter.length = t.counterSize

/-- `chacha(param)` -/
def construct (param : t.Param) : List Word :=
  [0x61707865, 0x3320646e, 0x79622d32, 0x6b206574] ++ param.key ++ param.counter ++ param.nonce

/-- The block of a state. -/
def block (state : List Word) : List Word :=
  let result := (chachaDoubleRound)^[t.rounds / 2] state
  (List.range blockSize).map fun i => result.getD i 0 + state.getD i 0

/-- `operator()` -/
def next (state : List Word) : List Word × List Word :=
  let result := t.block state
  let start := constantSize + keySize
  let counter := (state.drop start).take t.counterSize
  let counter := (Core.Num.add (limbType 32 t.counterSize) (ownLimbs 32 t.counterSize)
    (nullspan 32).source (constant 1) counter).1
  (result, state.take start ++ counter ++ state.drop (start + t.counterSize))

/-- The state with a number as counter. -/
def stateAt (key nonce : List Word) (counter : ℕ) : List Word :=
  [0x61707865, 0x3320646e, 0x79622d32, 0x6b206574] ++ key ++ ofValue t.counterSize counter ++ nonce

/-- How many blocks a nonce has. -/
def blockCount : ℕ := (2 ^ 32) ^ t.counterSize

/-- Counters that are equal modulo the number of blocks have the same words. -/
theorem counter_congr {m n : ℕ} (h : m % t.blockCount = n % t.blockCount) :
    (ofValue t.counterSize m : List Word) = ofValue t.counterSize n := by
  apply value_injective
  · rw [length_ofValue, length_ofValue]
  · rw [value_ofValue, value_ofValue]
    exact h

theorem stateAt_congr (key nonce : List Word) {m n : ℕ} (h : m % t.blockCount = n % t.blockCount) :
    t.stateAt key nonce m = t.stateAt key nonce n := by
  rw [stateAt, stateAt, t.counter_congr h]

section

/-! The parts of a state: constants and key, counter, nonce. -/

variable {key : List Word} (hkey : key.length = keySize) (nonce : List Word) (counter : ℕ)
include hkey

theorem length_start :
    ([0x61707865, 0x3320646e, 0x79622d32, 0x6b206574] ++ key : List Word).length =
      constantSize + keySize := by
  rw [List.length_append, hkey]
  rfl

theorem start_stateAt : (t.stateAt key nonce counter).take (constantSize + keySize) =
    [0x61707865, 0x3320646e, 0x79622d32, 0x6b206574] ++ key := by
  rw [stateAt, List.append_assoc, List.take_left' (length_start hkey)]

theorem counter_stateAt :
    ((t.stateAt key nonce counter).drop (constantSize + keySize)).take t.counterSize =
      ofValue t.counterSize counter := by
  rw [stateAt, List.append_assoc, List.drop_left' (length_start hkey),
    List.take_left' (length_ofValue _ _)]

theorem nonce_stateAt :
    (t.stateAt key nonce counter).drop (constantSize + keySize + t.counterSize) = nonce := by
  rw [← List.drop_drop, stateAt, List.append_assoc, List.drop_left' (length_start hkey),
    List.drop_left' (length_ofValue _ _)]

end

/-- The counter in place, plus one. -/
theorem next_stateAt {key : List Word} (nonce : List Word) (hkey : key.length = keySize)
    (counter : ℕ) :
    t.next (t.stateAt key nonce counter) =
      (t.block (t.stateAt key nonce counter), t.stateAt key nonce (counter + 1)) := by
  unfold next
  dsimp only
  rw [t.start_stateAt hkey, t.counter_stateAt hkey, t.nonce_stateAt hkey]
  congr 1
  rw [stateAt]
  congr 2
  have hlen : (ofValue t.counterSize counter : List Word).length =
      (limbType 32 t.counterSize).limbSize 32 := by simp
  -- the counter is incremented as one number of its limbs, which wraps around
  have hadd := (Num.add_eq (w := 32) (t := limbType 32 t.counterSize)
    (x := value (ofValue t.counterSize counter : List Word)) (y := 0) hlen
    (by rw [limbSize_limbType]; exact ownLimbs_reads _) (nullspan_denotes.reads _ _)
    (constant 1)).1
  rw [hadd]
  apply value_injective
  · simp
  · have hvalue := value_image_limbType (w := 32) t.counterSize
      ((value (ofValue t.counterSize counter : List Word) : ℤ) + 0 + 1)
    zify
    rw [show ((constant 1 : MaybeConstant Bit).value.toNat : ℤ) = 1 from rfl, hvalue,
      value_ofValue, value_ofValue]
    push_cast
    rw [Int.add_zero, Int.emod_add_emod]

end ChachaType

end Hmpc.Crypto
