/-
# Hmpc.Lib.BufferedStream -- a stream of blocks, read element by element

A source hands out blocks of one size. A reader holds the block that it is reading, and fetches the
next one as soon as it has read the last element, so that its index is always inside of its block.
What is still to come, `upcoming`, goes on by one element with every read; so requests of any sizes
split the stream without a gap: `readAll_eq`.
-/
import Mathlib.Algebra.Ring.Nat
import Mathlib.Data.List.Basic
import Mathlib.Logic.Function.Iterate

namespace Hmpc.Lib.BufferedStream

/-- A state machine that hands out blocks. -/
structure Source (σ α : Type*) where
  next : σ → List α × σ
  blockSize : ℕ
  blockSize_pos : 0 < blockSize
  length_next : ∀ s, (next s).1.length = blockSize

variable {σ α : Type*} {source : Source σ α}

/-- The block after `j` others. -/
def Source.blockAfter (source : Source σ α) (s : σ) (j : ℕ) : List α :=
  (source.next ((fun s => (source.next s).2)^[j] s)).1

/-- A source, a block that it has handed out, and the next element of the block. -/
@[ext] structure Reader (source : Source σ α) where
  state : σ
  block : List α
  index : ℕ
  length_block : block.length = source.blockSize
  index_lt : index < source.blockSize

namespace Reader

/-- The block of a reader, and those that come. -/
def blockAt (r : Reader source) : ℕ → List α
  | 0 => r.block
  | j + 1 => source.blockAfter r.state j

/-- The reader with the next block. -/
def refill (r : Reader source) : Reader source where
  state := (source.next r.state).2
  block := (source.next r.state).1
  index := 0
  length_block := source.length_next r.state
  index_lt := source.blockSize_pos

theorem blockAt_refill (r : Reader source) (j : ℕ) : r.refill.blockAt j = r.blockAt (j + 1) := by
  cases j <;> rfl

variable [Inhabited α]

/-- The element that is read after `k` others. -/
def upcoming (r : Reader source) (k : ℕ) : α :=
  (r.blockAt ((r.index + k) / source.blockSize)).getD ((r.index + k) % source.blockSize) default

/-- Reads an element, and fetches a block if it was the last one. -/
def read (r : Reader source) : α × Reader source :=
  (r.block.getD r.index default,
    if h : r.index + 1 = source.blockSize then r.refill
    else { r with index := r.index + 1, index_lt := Nat.lt_of_le_of_ne r.index_lt h })

theorem read_last {r : Reader source} (h : r.index + 1 = source.blockSize) :
    r.read = (r.block.getD r.index default, r.refill) := by
  rw [read, dif_pos h]

theorem read_inside {r : Reader source} (h : r.index + 1 ≠ source.blockSize) :
    r.read = (r.block.getD r.index default,
      { r with index := r.index + 1, index_lt := Nat.lt_of_le_of_ne r.index_lt h }) := by
  rw [read, dif_neg h]

theorem read_fst (r : Reader source) : r.read.1 = r.upcoming 0 := by
  unfold upcoming
  rw [Nat.add_zero, Nat.div_eq_of_lt r.index_lt, Nat.mod_eq_of_lt r.index_lt]
  rfl

/-- A read takes the first element of what is to come. -/
theorem upcoming_read (r : Reader source) (k : ℕ) : r.read.2.upcoming k = r.upcoming (k + 1) := by
  unfold read
  dsimp only
  split_ifs with hfull
  · -- the next block starts with what comes after the last element
    have hsum : r.index + (k + 1) = k + source.blockSize := by omega
    unfold upcoming
    rw [hsum, Nat.add_div_right _ source.blockSize_pos, Nat.add_mod_right, blockAt_refill]
    show (r.blockAt ((0 + k) / source.blockSize + 1)).getD ((0 + k) % source.blockSize) default = _
    rw [Nat.zero_add]
  · unfold upcoming
    dsimp only
    rw [Nat.add_assoc, Nat.add_comm 1 k]
    congr 1

/-- Reads `n` elements. -/
def readMany : ℕ → Reader source → List α × Reader source
  | 0, r => ([], r)
  | n + 1, r =>
      let (elements, r) := readMany n r
      (elements ++ [r.read.1], r.read.2)

theorem upcoming_readMany (n : ℕ) (r : Reader source) (k : ℕ) :
    (readMany n r).2.upcoming k = r.upcoming (n + k) := by
  induction n generalizing k with
  | zero => rw [Nat.zero_add]; rfl
  | succ n ih =>
      show ((readMany n r).2.read.2).upcoming k = _
      rw [upcoming_read, ih, Nat.add_assoc, Nat.add_comm 1 k]

/-- A request is answered with the next elements. -/
theorem readMany_fst (n : ℕ) (r : Reader source) :
    (readMany n r).1 = (List.range n).map r.upcoming := by
  induction n with
  | zero => rfl
  | succ n ih =>
      show (readMany n r).1 ++ [(readMany n r).2.read.1] = _
      rw [ih, read_fst, upcoming_readMany, List.range_succ, List.map_append, Nat.add_zero]
      rfl

theorem readMany_add (m n : ℕ) (r : Reader source) :
    readMany (m + n) r = ((readMany m r).1 ++ (readMany n (readMany m r).2).1,
      (readMany n (readMany m r).2).2) := by
  induction n with
  | zero => simp [readMany]
  | succ n ih =>
      rw [← Nat.add_assoc, readMany, ih]
      simp only [readMany, List.append_assoc]

/-- Requests one after the other. -/
def readAll : List ℕ → Reader source → List (List α) × Reader source
  | [], r => ([], r)
  | n :: sizes, r =>
      let (elements, r) := readMany n r
      let (rest, r) := readAll sizes r
      (elements :: rest, r)

theorem length_readMany (n : ℕ) (r : Reader source) : (readMany n r).1.length = n := by
  rw [readMany_fst, List.length_map, List.length_range]

theorem length_readAll (sizes : List ℕ) (r : Reader source) :
    (readAll sizes r).1.map List.length = sizes := by
  induction sizes generalizing r with
  | nil => rfl
  | cons n sizes ih =>
      show (readMany n r).1.length :: (readAll sizes (readMany n r).2).1.map List.length = _
      rw [length_readMany, ih]

/-- **Requests split the stream**: together they are answered as one request is. -/
theorem readAll_eq (sizes : List ℕ) (r : Reader source) :
    (readAll sizes r).1.flatten = (readMany sizes.sum r).1 ∧
      (readAll sizes r).2 = (readMany sizes.sum r).2 := by
  induction sizes generalizing r with
  | nil => exact ⟨rfl, rfl⟩
  | cons n sizes ih =>
      obtain ⟨helements, hreader⟩ := ih (readMany n r).2
      rw [List.sum_cons, readMany_add]
      exact ⟨congrArg ((readMany n r).1 ++ ·) helements, hreader⟩

end Reader

end Hmpc.Lib.BufferedStream
