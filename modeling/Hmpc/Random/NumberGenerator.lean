/-
# Hmpc.Random.NumberGenerator -- words drawn from an engine, and where in its stream they stand

A number generator keeps the block of its engine that it has not used up and asks for the next one
as soon as it has. The engine counts on while it hands out a block, so that a generator that has
drawn `n` words since it was made with a counter holds the block `n / 16` further, at word
`n % 16`; `DrawnAt` is that invariant. A position names a word of the stream: a nonce, a block
counter, and a word of the block.
-/
import Hmpc.Crypto.Chacha

namespace Hmpc.Random

open Hmpc.Core Hmpc.Crypto Hmpc.Lib.Limbs Hmpc.Lib.Loops Hmpc.Crypto.ChachaType

/-- `number_generator` -/
structure NumberGenerator where
  engine : List Word
  state : List Word
  blockIndex : ℕ

namespace NumberGenerator

variable (t : ChachaType)

/-- `number_generator(param)` -/
def construct (param : t.Param) : NumberGenerator :=
  let (block, engine) := t.next (t.construct param)
  ⟨engine, block, 0⟩

/-- One word: the body of the loop of `uniform`. -/
def drawWord (g : NumberGenerator) : Word × NumberGenerator :=
  let word := g.state.getD g.blockIndex 0
  let blockIndex := g.blockIndex + 1
  if blockIndex = blockSize then
    let (block, engine) := t.next g.engine
    (word, ⟨engine, block, 0⟩)
  else (word, ⟨g.engine, g.state, blockIndex⟩)

/-- `uniform(result)` -/
def uniform (result : BitSpan 32) (g : NumberGenerator) : List Word × NumberGenerator :=
  scanRange (result.type.limbSize 32) (fun i s =>
    let drawn := drawWord t s.2
    (result.type.write i drawn.1 .normal s.1, drawn.2)) (result.limbs, g)

end NumberGenerator

/-- A word of the stream of a key. -/
structure Position where
  nonce : List Word
  counter : ℕ
  word : ℕ
  deriving DecidableEq

namespace NumberGenerator

variable (t : ChachaType)

/-- The word a generator draws next: its block is the one before the counter of the engine. -/
def position (g : NumberGenerator) : Position where
  nonce := g.engine.drop (constantSize + keySize + t.counterSize)
  counter := (value ((g.engine.drop (constantSize + keySize)).take t.counterSize) +
    (t.blockCount - 1)) % t.blockCount
  word := g.blockIndex

/-- The positions of the next `n` words. -/
def consumed : ℕ → NumberGenerator → List Position
  | 0, _ => []
  | n + 1, g => g.position t :: consumed n (drawWord t g).2

/-- A generator made with the counter `start`, after `n` words. -/
structure DrawnAt (key nonce : List Word) (start n : ℕ) (g : NumberGenerator) : Prop where
  engine : g.engine = t.stateAt key nonce (start + n / blockSize + 1)
  state : g.state = t.block (t.stateAt key nonce (start + n / blockSize))
  blockIndex : g.blockIndex = n % blockSize

variable {t} {key nonce : List Word} {start n : ℕ} {g : NumberGenerator}

theorem DrawnAt.drawWord (hkey : key.length = keySize) (h : DrawnAt t key nonce start n g) :
    DrawnAt t key nonce start (n + 1) (drawWord t g).2 := by
  unfold NumberGenerator.drawWord
  dsimp only
  split_ifs with hfull
  · -- the block is used up
    rw [h.blockIndex] at hfull
    unfold blockSize at hfull
    have hdiv : (n + 1) / blockSize = n / blockSize + 1 := by
      unfold blockSize
      omega
    have hmod : (n + 1) % blockSize = 0 := by
      unfold blockSize
      omega
    have hnext := t.next_stateAt nonce hkey (start + n / blockSize + 1)
    rw [← h.engine] at hnext
    rw [hnext]
    constructor
    · rw [hdiv, ← Nat.add_assoc]
    · show t.block g.engine = _
      rw [h.engine, hdiv, ← Nat.add_assoc]
    · exact hmod.symm
  · rw [h.blockIndex] at hfull
    unfold blockSize at hfull
    have hdiv : (n + 1) / blockSize = n / blockSize := by
      unfold blockSize
      omega
    have hmod : (n + 1) % blockSize = n % blockSize + 1 := by
      unfold blockSize
      omega
    constructor
    · rw [hdiv]
      exact h.engine
    · rw [hdiv]
      exact h.state
    · rw [hmod, ← h.blockIndex]

/-- The word drawn is the one of the stream at its position. -/
theorem DrawnAt.word (h : DrawnAt t key nonce start n g) :
    (NumberGenerator.drawWord t g).1 =
      (t.block (t.stateAt key nonce (start + n / blockSize))).getD (n % blockSize) 0 := by
  have hword : (NumberGenerator.drawWord t g).1 = g.state.getD g.blockIndex 0 := by
    unfold NumberGenerator.drawWord
    dsimp only
    split_ifs <;> rfl
  rw [hword, h.state, h.blockIndex]

theorem DrawnAt.position (hkey : key.length = keySize) (h : DrawnAt t key nonce start n g) :
    g.position t = ⟨nonce, (start + n / blockSize) % t.blockCount, n % blockSize⟩ := by
  have hpos : 0 < t.blockCount := by
    unfold blockCount
    positivity
  unfold NumberGenerator.position
  rw [h.engine, h.blockIndex, t.nonce_stateAt hkey, t.counter_stateAt hkey, value_ofValue]
  congr 1
  show ((start + n / blockSize + 1) % t.blockCount + (t.blockCount - 1)) % t.blockCount = _
  rw [Nat.mod_add_mod, show start + n / blockSize + 1 + (t.blockCount - 1) =
    start + n / blockSize + t.blockCount by omega, Nat.add_mod_right]

/-- The next words stand in order. -/
theorem DrawnAt.consumed (hkey : key.length = keySize) (h : DrawnAt t key nonce start n g)
    (count : ℕ) : g.consumed t count = (List.range count).map fun i =>
      ⟨nonce, (start + (n + i) / blockSize) % t.blockCount, (n + i) % blockSize⟩ := by
  induction count generalizing n g with
  | zero => rfl
  | succ count ih =>
      rw [NumberGenerator.consumed, h.position hkey, ih (h.drawWord hkey), List.range_succ_eq_map,
        List.map_cons, List.map_map]
      congr 1
      apply List.map_congr_left
      intro i _
      simp only [Function.comp_apply, Nat.succ_eq_add_one, Nat.add_assoc, Nat.add_comm 1 i]

theorem DrawnAt.uniform (hkey : key.length = keySize) (h : DrawnAt t key nonce start n g)
    (result : BitSpan 32) :
    DrawnAt t key nonce start (n + result.type.limbSize 32) (uniform t result g).2 := by
  apply scanRange_induction
    (P := fun i (s : List Word × NumberGenerator) => DrawnAt t key nonce start (n + i) s.2)
  · exact h
  · intro i _ s hs
    exact hs.drawWord hkey

end NumberGenerator

end Hmpc.Random
