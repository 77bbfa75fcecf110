/-
# Hmpc.Crypto.Engine -- the engine as a whole: parameters, calls, and the position in its stream

The state of an engine always begins with the constants, so that an engine is no more than its
parameters: `construct_param` and `param_construct`. The calls of an engine return the block
function of its key, its nonce and a counter that goes up by one, modulo what the counter words can
hold: `call_eq`. The block function is stated on a matrix of words, where a diagonal round is a
column round between two rotations of the rows.
-/
import Hmpc.Crypto.Chacha

namespace Hmpc.Crypto

open Hmpc.Core Hmpc.Lib.Limbs Hmpc.Lib.Loops Hmpc.Crypto.ChachaType

/-! ## The block function -/

/-- Sixteen words, by row and column. -/
abbrev WordMatrix := Fin 4 → Fin 4 → Word

namespace WordMatrix

/-- The words row by row. -/
def toList (m : WordMatrix) : List Word :=
  (List.finRange 4).flatMap fun r => (List.finRange 4).map (m r)

def ofList (state : List Word) : WordMatrix := fun r c => state.getD (4 * r + c) 0

/-- A quarter round on each column. -/
def columnRound (m : WordMatrix) : WordMatrix := fun r c =>
  let (a, b, c, d) := chachaQuarterRound (m 0 c) (m 1 c) (m 2 c) (m 3 c)
  match r with
  | 0 => a
  | 1 => b
  | 2 => c
  | 3 => d

/-- Row `r`, rotated by `r` to the left: the diagonals become columns. -/
def rotateRows (m : WordMatrix) : WordMatrix := fun r c => m r (c + r)

def rotateRowsBack (m : WordMatrix) : WordMatrix := fun r c => m r (c - r)

/-- A column round and a diagonal round. -/
def doubleRound (m : WordMatrix) : WordMatrix :=
  rotateRowsBack (columnRound (rotateRows (columnRound m)))

/-- **The block function**: the rounds, and the words that went in added to those that come out. -/
def block (rounds : ℕ) (m : WordMatrix) : WordMatrix := doubleRound^[rounds / 2] m + m

theorem toList_eq (m : WordMatrix) : m.toList =
    [m 0 0, m 0 1, m 0 2, m 0 3, m 1 0, m 1 1, m 1 2, m 1 3,
      m 2 0, m 2 1, m 2 2, m 2 3, m 3 0, m 3 1, m 3 2, m 3 3] := rfl

theorem toList_ofList {state : List Word} (hsize : state.length = blockSize) :
    (ofList state).toList = state := by
  show (List.range 16).map (state.getD · 0) = state
  apply List.ext_getElem
  · rw [List.length_map, List.length_range, hsize]
    rfl
  · intro i hi hstate
    rw [List.getElem_map, List.getElem_range, List.getD_eq_getElem?_getD,
      List.getElem?_eq_getElem hstate, Option.getD_some]

end WordMatrix

open WordMatrix

/-- `quarterRoundAt` without the pattern. -/
theorem quarterRoundAt_eq (i j k l : ℕ) (state : List Word) : quarterRoundAt i j k l state =
    let q := chachaQuarterRound (state.getD i 0) (state.getD j 0) (state.getD k 0)
      (state.getD l 0)
    (((state.set i q.1).set j q.2.1).set k q.2.2.1).set l q.2.2.2 := rfl

theorem columns_toList (m : WordMatrix) :
    (List.range 4).foldl (fun s i => quarterRoundAt i (i + 4) (i + 8) (i + 12) s) m.toList =
      (columnRound m).toList := by
  have hrange : List.range 4 = [0, 1, 2, 3] := rfl
  rw [toList_eq, toList_eq, hrange]
  simp only [List.foldl_cons, List.foldl_nil, quarterRoundAt_eq, Nat.zero_add, Nat.reduceAdd,
    List.getD_cons_zero, List.getD_cons_succ, List.set_cons_zero, List.set_cons_succ, columnRound]

theorem diagonals_toList (m : WordMatrix) :
    quarterRoundAt 3 4 9 14 (quarterRoundAt 2 7 8 13 (quarterRoundAt 1 6 11 12
      (quarterRoundAt 0 5 10 15 m.toList))) =
      (rotateRowsBack (columnRound (rotateRows m))).toList := by
  rw [toList_eq, toList_eq]
  simp only [quarterRoundAt_eq, List.getD_cons_zero, List.getD_cons_succ, List.set_cons_zero,
    List.set_cons_succ, columnRound, rotateRows, rotateRowsBack]
  rfl

theorem chachaDoubleRound_toList (m : WordMatrix) :
    chachaDoubleRound m.toList = (doubleRound m).toList := by
  unfold chachaDoubleRound
  dsimp only
  rw [columns_toList, diagonals_toList]
  rfl

theorem iterate_chachaDoubleRound_toList (n : ℕ) (m : WordMatrix) :
    chachaDoubleRound^[n] m.toList = (doubleRound^[n] m).toList := by
  induction n generalizing m with
  | zero => rfl
  | succ n ih => rw [Function.iterate_succ_apply, chachaDoubleRound_toList, ih,
      Function.iterate_succ_apply]

/-- `block` is the block function. -/
theorem block_toList (t : ChachaType) (m : WordMatrix) :
    t.block m.toList = (m.block t.rounds).toList := by
  unfold ChachaType.block
  dsimp only
  rw [iterate_chachaDoubleRound_toList]
  unfold WordMatrix.block
  generalize doubleRound^[t.rounds / 2] m = result
  rw [toList_eq, toList_eq, toList_eq]
  rfl

/-! ## The engine -/

namespace ChachaType

/-- The first words of every state. -/
def constants : List Word := [0x61707865, 0x3320646e, 0x79622d32, 0x6b206574]

end ChachaType

/-- `chacha`: a state, which begins with the constants. -/
@[ext] structure Chacha (t : ChachaType) where
  state : List Word
  block_size : state.length = blockSize
  state_constants : state.take constantSize = constants

/-- `state[i + start] = words[i]` for all words. -/
def copyWords (start count : ℕ) (words state : List Word) : List Word :=
  scanRange count (fun i s => s.set (i + start) (words.getD i 0)) state

theorem copyWords_eq {start count : ℕ} {words state : List Word} (hwords : words.length = count)
    (hstate : start + count ≤ state.length) :
    copyWords start count words state =
      state.take start ++ words ++ state.drop (start + count) := by
  have hscan : copyWords start count words state =
      state.take start ++ words.take count ++ state.drop (start + count) := by
    apply scanRange_induction
      (P := fun i s => s = state.take start ++ words.take i ++ state.drop (start + i))
    · simp
    · intro i hi s hs
      have hlength : (state.take start ++ words.take i).length = i + start := by
        rw [List.length_append, List.length_take, List.length_take]
        omega
      have htake : words.take (i + 1) = words.take i ++ [words.getD i 0] := by
        rw [List.take_add_one, List.getD_eq_getElem?_getD, List.getElem?_eq_getElem (by omega)]
        rfl
      rw [hs, htake, List.drop_eq_getElem_cons (show start + i < state.length by omega),
        List.set_append_right (i + start) _ (by omega), hlength, Nat.sub_self,
        List.set_cons_zero]
      simp [Nat.add_assoc]
  rw [hscan, ← hwords, List.take_length]

namespace ChachaType

variable {t : ChachaType}

theorem length_stateAt {key nonce : List Word} (hkey : key.length = keySize)
    (hnonce : nonce.length = t.nonceSize) (counter : ℕ) :
    (t.stateAt key nonce counter).length = blockSize := by
  have hsize := t.size_eq
  rw [stateAt, List.length_append, List.length_append, List.length_append, length_ofValue, hkey,
    hnonce]
  show 4 + 8 + t.counterSize + t.nonceSize = 16
  omega

namespace Param

/-- The same key and nonce, with a number as counter. -/
def withCounter (param : t.Param) (counter : ℕ) : t.Param where
  key := param.key
  nonce := param.nonce
  counter := ofValue t.counterSize counter
  key_size := param.key_size
  nonce_size := param.nonce_size
  counter_size := length_ofValue _ _

/-- The counter words as a number. -/
def count (param : t.Param) : ℕ := value param.counter

theorem withCounter_count (param : t.Param) : param.withCounter param.count = param := by
  have hcounter : (ofValue t.counterSize (value param.counter) : List Word) = param.counter := by
    rw [← param.counter_size, ofValue_value]
  unfold withCounter count
  cases param
  simp only [hcounter]

theorem count_withCounter (param : t.Param) (counter : ℕ) :
    (param.withCounter counter).count = counter % t.blockCount := value_ofValue _ _

theorem withCounter_congr (param : t.Param) {m n : ℕ}
    (h : m % t.blockCount = n % t.blockCount) : param.withCounter m = param.withCounter n := by
  unfold withCounter
  simp only [t.counter_congr h]

theorem construct_withCounter (param : t.Param) (counter : ℕ) :
    t.construct (param.withCounter counter) = t.stateAt param.key param.nonce counter := rfl

theorem construct_eq (param : t.Param) :
    t.construct param = t.stateAt param.key param.nonce param.count := by
  rw [← construct_withCounter, withCounter_count]

end Param

end ChachaType

namespace Chacha

variable {t : ChachaType}

/-- `chacha(compiletime)`: no parameters yet, all words other than the constants are zero. -/
def compiletime : Chacha t where
  state := constants ++ List.replicate (blockSize - constantSize) 0
  block_size := rfl
  state_constants := rfl

theorem length_construct (param : t.Param) : (t.construct param).length = blockSize := by
  rw [Param.construct_eq]
  exact length_stateAt param.key_size param.nonce_size _

/-- `chacha(param)` -/
def construct (param : t.Param) : Chacha t := ⟨t.construct param, length_construct param, rfl⟩

/-- `span.subspan<start, count>()` lies in the state. -/
theorem length_subspan (e : Chacha t) {start count : ℕ} (h : start + count ≤ blockSize) :
    ((e.state.drop start).take count).length = count := by
  rw [List.length_take, List.length_drop, e.block_size]
  omega

theorem nonce_le (t : ChachaType) :
    constantSize + keySize + t.counterSize + t.nonceSize ≤ blockSize := by
  have hsize := t.size_eq
  show 4 + 8 + t.counterSize + t.nonceSize ≤ 16
  omega

theorem counter_le (t : ChachaType) : constantSize + keySize + t.counterSize ≤ blockSize :=
  Nat.le_of_add_right_le (nonce_le t)

theorem key_le : constantSize + keySize ≤ blockSize := by decide

/-- `param()` -/
def param (e : Chacha t) : t.Param where
  key := (e.state.drop constantSize).take keySize
  nonce := (e.state.drop (constantSize + keySize + t.counterSize)).take t.nonceSize
  counter := (e.state.drop (constantSize + keySize)).take t.counterSize
  key_size := e.length_subspan key_le
  nonce_size := e.length_subspan (nonce_le t)
  counter_size := e.length_subspan (counter_le t)

/-- An engine is made of its parameters. -/
theorem construct_param (e : Chacha t) : construct e.param = e := by
  have hsize := t.size_eq
  have hlength : e.state.length = 16 := e.block_size
  have hconstants : e.state.take 4 = constants := e.state_constants
  apply Chacha.ext
  show constants ++ (e.state.drop 4).take 8 ++ (e.state.drop (4 + 8)).take t.counterSize ++
    (e.state.drop (4 + 8 + t.counterSize)).take t.nonceSize = e.state
  rw [List.take_of_length_le (l := e.state.drop (4 + 8 + t.counterSize))
      (by rw [List.length_drop]; omega),
    ← List.drop_drop (l := e.state) (i := t.counterSize), List.append_assoc,
    List.take_append_drop, ← List.drop_drop (l := e.state) (i := 8), List.append_assoc,
    List.take_append_drop, ← hconstants, List.take_append_drop]

theorem param_construct (param : t.Param) : (construct param).param = param := by
  have hkey : (t.construct param).drop constantSize =
      param.key ++ (param.counter ++ param.nonce) := by
    show param.key ++ param.counter ++ param.nonce = _
    rw [List.append_assoc]
  have hcounter : (t.construct param).drop (constantSize + keySize) =
      param.counter ++ param.nonce := by
    rw [← List.drop_drop, hkey, List.drop_left' param.key_size]
  have hnonce : (t.construct param).drop (constantSize + keySize + t.counterSize) =
      param.nonce := by
    rw [← List.drop_drop, hcounter, List.drop_left' param.counter_size]
  unfold Chacha.param construct
  cases param with
  | mk key nonce counter key_size nonce_size counter_size =>
      simp only [hkey, hcounter, hnonce, List.take_left' key_size, List.take_left' counter_size,
        List.take_of_length_le nonce_size.le]

/-- The copies of `param(param)`. -/
def setWords (e : Chacha t) (param : t.Param) : List Word :=
  let state := copyWords constantSize keySize param.key e.state
  let state := copyWords (constantSize + keySize) t.counterSize param.counter state
  copyWords (constantSize + keySize + t.counterSize) t.nonceSize param.nonce state

theorem setWords_eq (e : Chacha t) (param : t.Param) : e.setWords param = t.construct param := by
  have hsize := t.size_eq
  have hlength : e.state.length = 16 := e.block_size
  have hkey : param.key.length = 8 := param.key_size
  have hcounter := param.counter_size
  have hnonce := param.nonce_size
  have hconstants : e.state.take constantSize = constants := e.state_constants
  have hconstants_length : constants.length = 4 := rfl
  unfold setWords
  dsimp only
  unfold keySize constantSize at *
  -- key, counter and nonce are written after one another, and fill the state
  rw [copyWords_eq hkey (by omega), hconstants]
  have hfirst : (constants ++ param.key).length = 4 + 8 := by
    rw [List.length_append, hkey, hconstants_length]
  generalize hprefix : constants ++ param.key = words at hfirst
  have hrest : (words ++ e.state.drop (4 + 8)).length = 16 := by
    rw [List.length_append, List.length_drop]
    omega
  rw [copyWords_eq hcounter (by omega), List.take_left' hfirst]
  have hsecond : (words ++ param.counter).length = 4 + 8 + t.counterSize := by
    rw [List.length_append, hfirst, hcounter]
  generalize hmiddle : words ++ param.counter = before at hsecond
  have hlast : (before ++ (words ++ e.state.drop (4 + 8)).drop (4 + 8 + t.counterSize)).length =
      4 + 8 + t.counterSize + t.nonceSize := by
    rw [List.length_append, List.length_drop]
    omega
  rw [copyWords_eq hnonce (by omega), List.take_left' hsecond,
    List.drop_of_length_le (by omega), List.append_nil, ← hmiddle, ← hprefix]
  rfl

theorem length_setWords (e : Chacha t) (param : t.Param) :
    (e.setWords param).length = blockSize := by
  rw [setWords_eq, length_construct]

theorem take_setWords (e : Chacha t) (param : t.Param) :
    (e.setWords param).take constantSize = constants := by
  rw [setWords_eq]
  rfl

/-- `param(param)` -/
def setParam (e : Chacha t) (param : t.Param) : Chacha t :=
  ⟨e.setWords param, e.length_setWords param, e.take_setWords param⟩

/-- What was in the state before does not matter. -/
theorem setParam_eq (e : Chacha t) (param : t.Param) : e.setParam param = construct param :=
  Chacha.ext (e.setWords_eq param)

/-! ## Calls -/

theorem state_eq (e : Chacha t) :
    e.state = t.stateAt e.param.key e.param.nonce e.param.count := by
  rw [← Param.construct_eq, ← congrArg Chacha.state e.construct_param]
  rfl

/-- A call counts on, and changes nothing else. -/
theorem next_state (e : Chacha t) : (t.next e.state).2 =
    (construct (e.param.withCounter (e.param.count + 1))).state := by
  rw [e.state_eq, next_stateAt _ _ e.param.key_size]
  rfl

theorem length_next (e : Chacha t) : (t.next e.state).2.length = blockSize := by
  rw [next_state]
  exact block_size _

theorem take_next (e : Chacha t) : (t.next e.state).2.take constantSize = constants := by
  rw [next_state]
  exact state_constants _

/-- `operator()` -/
def next (e : Chacha t) : List Word × Chacha t :=
  ((t.next e.state).1, ⟨(t.next e.state).2, e.length_next, e.take_next⟩)

/-- The engine after `k` calls. -/
def after (e : Chacha t) (k : ℕ) : Chacha t := (fun e => e.next.2)^[k] e

/-- What the call after `k` others returns. -/
def call (e : Chacha t) (k : ℕ) : List Word := (e.after k).next.1

theorem next_snd (e : Chacha t) :
    e.next.2 = construct (e.param.withCounter (e.param.count + 1)) := Chacha.ext e.next_state

/-- The block function of a key, a nonce and a counter. -/
def blockFunction (t : ChachaType) (key nonce : List Word) (counter : ℕ) : List Word :=
  ((ofList (t.stateAt key nonce counter)).block t.rounds).toList

theorem next_fst (e : Chacha t) :
    e.next.1 = blockFunction t e.param.key e.param.nonce e.param.count := by
  have hmatrix := toList_ofList (length_stateAt e.param.key_size e.param.nonce_size e.param.count)
  show t.block e.state = _
  rw [e.state_eq, blockFunction, ← block_toList, hmatrix]

theorem after_succ (e : Chacha t) (k : ℕ) : e.after (k + 1) = (e.after k).next.2 :=
  Function.iterate_succ_apply' _ _ _

theorem after_add (e : Chacha t) (k j : ℕ) : e.after (k + j) = (e.after k).after j := by
  rw [Nat.add_comm]
  exact Function.iterate_add_apply _ _ _ _

/-- After some calls an engine is the one with a larger counter. -/
theorem after_eq (e : Chacha t) (k : ℕ) :
    e.after k = construct (e.param.withCounter (e.param.count + k)) := by
  induction k with
  | zero => rw [Nat.add_zero, Param.withCounter_count, construct_param]; rfl
  | succ k ih =>
      have hcount : (e.after k).param.count = (e.param.count + k) % t.blockCount := by
        rw [ih, param_construct, Param.count_withCounter]
      rw [after_succ, next_snd, hcount, ih, param_construct]
      show construct (e.param.withCounter _) = _
      congr 1
      apply Param.withCounter_congr
      rw [Nat.mod_add_mod, Nat.add_assoc]

theorem call_eq (e : Chacha t) (k : ℕ) :
    e.call k = blockFunction t e.param.key e.param.nonce ((e.param.count + k) % t.blockCount) := by
  unfold call
  rw [next_fst, after_eq, param_construct, Param.count_withCounter]
  rfl

/-- States with different counters are different, up to what the counter words hold. -/
theorem stateAt_inj {key nonce : List Word} {m n : ℕ} :
    t.stateAt key nonce m = t.stateAt key nonce n ↔ m % t.blockCount = n % t.blockCount := by
  constructor
  · intro h
    have hcounter : (ofValue t.counterSize m : List Word) = ofValue t.counterSize n :=
      List.append_cancel_left (List.append_cancel_right h)
    have hvalue := congrArg value hcounter
    rwa [value_ofValue, value_ofValue] at hvalue
  · exact t.stateAt_congr key nonce

theorem blockCount_eq (t : ChachaType) : t.blockCount = 2 ^ (32 * t.counterSize) :=
  (pow_mul 2 32 t.counterSize).symm

/-- **Position in the stream.** The `k`-th call returns the block function of the key, the nonce
and the counter plus `k`, modulo what the counter words hold; key, nonce and constants stay as they
are. Whatever engine gets the parameters with the counter plus `k` goes on from there, and
different counters are different states. -/
theorem streamPosition (t : ChachaType) (param : t.Param) (k : ℕ) :
    (construct param).call k = blockFunction t param.key param.nonce
        ((param.count + k) % 2 ^ (32 * t.counterSize)) ∧
      ((construct param).after k).state.take constantSize = constants ∧
      ((construct param).after k).param = param.withCounter (param.count + k) ∧
      (∀ j, (construct (param.withCounter (param.count + k))).call j =
        (construct param).call (k + j)) ∧
      (∀ (e : Chacha t) (j : ℕ), (e.setParam (param.withCounter (param.count + k))).call j =
        (construct param).call (k + j)) ∧
      ∀ m n : ℕ, (construct (param.withCounter m)).state = (construct (param.withCounter n)).state ↔
        m % 2 ^ (32 * t.counterSize) = n % 2 ^ (32 * t.counterSize) := by
  have hafter : construct (param.withCounter (param.count + k)) = (construct param).after k := by
    rw [after_eq, param_construct]
  have hcall (j : ℕ) : (construct (param.withCounter (param.count + k))).call j =
      (construct param).call (k + j) := by
    rw [hafter]
    unfold call
    rw [after_add]
  refine ⟨?_, state_constants _, ?_, hcall, ?_, ?_⟩
  · rw [call_eq, param_construct, blockCount_eq]
  · rw [← hafter, param_construct]
  · intro e j
    rw [setParam_eq, hcall]
  · intro m n
    rw [← blockCount_eq]
    exact stateAt_inj

/-- The block of the test. -/
example : chacha20.block (chacha20.stateAt [0x03020100, 0x07060504, 0x0b0a0908, 0x0f0e0d0c,
    0x13121110, 0x17161514, 0x1b1a1918, 0x1f1e1d1c] [0x09000000, 0x4a000000, 0] 1) =
    [0xe4e7f110, 0x15593bd1, 0x1fdd0f50, 0xc47120a3, 0xc7f4d1c7, 0x0368c033,
      0x9aaa2204, 0x4e6cd4c3, 0x466482d2, 0x09aa9f07, 0x05d7c214, 0xa2028bd9,
      0xd19c12b5, 0xb94e16de, 0xe883d0cb, 0x4e3c50a2] := by
  decide +kernel

end Chacha

end Hmpc.Crypto
