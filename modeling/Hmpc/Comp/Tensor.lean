/-
# Hmpc.Comp.Tensor -- tensors in memory

A tensor is a buffer of limbs with one row for each limb of an element: the lowest limbs of all
elements first. An element is read and written through references, one into each row. Kernels write
the elements in any order, and a message has the bytes of the buffer as they lie in memory, whatever
the elements are. So what another party reads at an index is what was written there:
`tensor_travels`.
-/
import Hmpc.Lib.Loops
import Hmpc.Net.Message

namespace Hmpc.Comp

open Hmpc.Lib Hmpc.Lib.Loops Hmpc.Net

variable {w limbSize size : ℕ}

/-- `sycl::buffer<limb_type, 2>` of the range `{limb_size, size}` -/
@[ext] structure Tensor (w limbSize size : ℕ) where
  buffer : List (BitVec w)
  length_eq : buffer.length = limbSize * size

/-- Where `sycl::id<2>{j, i}` is. -/
def offset (size j i : ℕ) : ℕ := j * size + i

/-- `references = value.data` -/
def writeLimbs (limbSize size i : ℕ) (limbs buffer : List (BitVec w)) : List (BitVec w) :=
  scanRange limbSize (fun j buffer => buffer.set (offset size j i) (limbs.getD j 0)) buffer

theorem length_writeLimbs (limbSize i : ℕ) (limbs buffer : List (BitVec w)) :
    (writeLimbs limbSize size i limbs buffer).length = buffer.length :=
  scanRange_keeps (fun _ _ => List.length_set) limbSize buffer

/-- The words of a pointer to memory in little endian. -/
def wordsOfBytes (b : ℕ) : ℕ → List Byte → List (BitVec (8 * b))
  | 0, _ => []
  | n + 1, bytes => BitVec.ofNat (8 * b) (Limbs.value (bytes.take b)) ::
      wordsOfBytes b n (bytes.drop b)

theorem length_wordsOfBytes (b n : ℕ) (bytes : List Byte) :
    (wordsOfBytes b n bytes).length = n := by
  induction n generalizing bytes with
  | zero => rfl
  | succ n ih => rw [wordsOfBytes, List.length_cons, ih]

namespace Tensor

/-- `operator value_type` of an `accessor_reference`: the limbs of an element. -/
def read (x : Tensor w limbSize size) (i : ℕ) : List (BitVec w) :=
  (List.range limbSize).map fun j => x.buffer.getD (offset size j i) 0

/-- `operator=` of an `accessor_reference` -/
def write (x : Tensor w limbSize size) (i : ℕ) (limbs : List (BitVec w)) :
    Tensor w limbSize size :=
  ⟨writeLimbs limbSize size i limbs x.buffer, (length_writeLimbs ..).trans x.length_eq⟩

/-- `handler.parallel_for`, with a kernel that assigns to `write[i]`: the tensor that was made, and
the work items in the order in which they run. -/
def fill (x : Tensor w limbSize size) (f : ℕ → List (BitVec w)) (order : List ℕ) :
    Tensor w limbSize size :=
  order.foldl (fun x i => x.write i (f i)) x

/-- `get_byte_size` -/
def byteSize (b limbSize size : ℕ) : ℕ := b * (limbSize * size)

/-- What is at `data()`. -/
def bytes {b : ℕ} (x : Tensor (8 * b) limbSize size) : List Byte := x.buffer.flatMap (toLeBytes b)

/-- The tensor after some bytes have been received at `data()`. -/
def ofBytes (b limbSize size : ℕ) (bytes : List Byte) : Tensor (8 * b) limbSize size :=
  ⟨wordsOfBytes b (limbSize * size) bytes, length_wordsOfBytes ..⟩

/-! ## Elements -/

@[simp] theorem length_read (x : Tensor w limbSize size) (i : ℕ) :
    (x.read i).length = limbSize := by
  rw [read, List.length_map, List.length_range]

theorem offset_lt {j i : ℕ} (hj : j < limbSize) (hi : i < size) :
    offset size j i < limbSize * size := by
  have hle : (j + 1) * size ≤ limbSize * size := Nat.mul_le_mul_right size hj
  rw [Nat.succ_mul] at hle
  unfold offset
  omega

/-- No two limbs of elements have one place. -/
theorem offset_inj {j j' i i' : ℕ} (hi : i < size) (hi' : i' < size)
    (h : offset size j i = offset size j' i') : j = j' ∧ i = i' := by
  unfold offset at h
  have hsize : 0 < size := Nat.zero_lt_of_lt hi
  have hdiv := congrArg (· / size) h
  have hmod := congrArg (· % size) h
  simp only [Nat.mul_comm _ size, Nat.mul_add_div hsize, Nat.mul_add_mod, Nat.div_eq_of_lt hi,
    Nat.div_eq_of_lt hi', Nat.mod_eq_of_lt hi, Nat.mod_eq_of_lt hi', Nat.add_zero] at hdiv hmod
  exact ⟨hdiv, hmod⟩

/-- A place after the first limbs have been written. -/
theorem getD_writeLimbs {i i' j : ℕ} (hi : i < size) (hi' : i' < size) (hj : j < limbSize)
    (n : ℕ) (limbs : List (BitVec w)) {buffer : List (BitVec w)}
    (hlength : buffer.length = limbSize * size) :
    (writeLimbs n size i limbs buffer).getD (offset size j i') 0 =
      if i' = i ∧ j < n then limbs.getD j 0 else buffer.getD (offset size j i') 0 := by
  induction n with
  | zero => rw [if_neg fun h => Nat.not_lt_zero j h.2]; rfl
  | succ n ih =>
      rw [writeLimbs, scanRange, ← writeLimbs, List.getD_eq_getElem?_getD, List.getElem?_set]
      by_cases hsame : offset size n i = offset size j i'
      · obtain ⟨rfl, rfl⟩ := offset_inj hi hi' hsame
        have hlt := offset_lt hj hi
        rw [if_pos rfl, if_pos (by rw [length_writeLimbs, hlength]; exact hlt),
          if_pos ⟨rfl, Nat.lt_succ_self n⟩]
        rfl
      · have hiff : i' = i ∧ j < n + 1 ↔ i' = i ∧ j < n := by
          refine and_congr_right fun heq => ?_
          have hne : j ≠ n := fun hjn => hsame (by rw [heq, hjn])
          omega
        rw [if_neg hsame, ← List.getD_eq_getElem?_getD, ih]
        simp only [hiff]

/-- An element is what was written to it last, and it is not touched by writes to others. -/
theorem read_write (x : Tensor w limbSize size) {i i' : ℕ} (hi : i < size) (hi' : i' < size)
    {limbs : List (BitVec w)} (hlimbs : limbs.length = limbSize) :
    (x.write i limbs).read i' = if i' = i then limbs else x.read i' := by
  have hread (j : ℕ) (hj : j < limbSize) := getD_writeLimbs hi hi' hj limbSize limbs x.length_eq
  split_ifs with heq
  · apply List.ext_getElem
    · rw [length_read, hlimbs]
    · intro j hj hj'
      rw [length_read] at hj
      simp only [read, write, List.getElem_map, List.getElem_range]
      rw [hread j hj, if_pos ⟨heq, hj⟩, List.getD_eq_getElem?_getD, List.getElem?_eq_getElem hj']
      rfl
  · refine List.map_congr_left fun j hj => ?_
    exact (hread j (List.mem_range.mp hj)).trans (if_neg fun h => heq h.1)

/-- The elements determine the buffer. -/
theorem ext_read {x y : Tensor w limbSize size} (h : ∀ i < size, x.read i = y.read i) : x = y := by
  apply Tensor.ext
  apply List.ext_getElem (x.length_eq.trans y.length_eq.symm)
  intro k hk hk'
  rw [x.length_eq] at hk
  have hsize : 0 < size := Nat.pos_of_lt_mul_left hk
  have hi := Nat.mod_lt k hsize
  have hj : k / size < limbSize := Nat.div_lt_of_lt_mul (by rwa [Nat.mul_comm] at hk)
  have hoffset : offset size (k / size) (k % size) = k := by
    rw [offset, Nat.mul_comm]
    exact Nat.div_add_mod k size
  have hread := congrArg (fun limbs : List (BitVec w) => limbs.getD (k / size) 0) (h _ hi)
  simp only [read, List.getD_eq_getElem?_getD, List.getElem?_map, List.getElem?_range hj,
    Option.map_some, Option.getD_some, hoffset] at hread
  rwa [List.getElem?_eq_getElem, List.getElem?_eq_getElem] at hread

/-- A tensor without dimensions has the limbs of its element one after the other, as the buffer of
one element has. -/
theorem read_zero (x : Tensor w limbSize 1) : x.read 0 = x.buffer := by
  apply List.ext_getElem
  · rw [length_read, x.length_eq, Nat.mul_one]
  · intro j _ hj
    simp only [read, offset, List.getElem_map, List.getElem_range, Nat.mul_one, Nat.add_zero]
    rw [List.getD_eq_getElem?_getD, List.getElem?_eq_getElem hj]
    rfl

/-! ## Kernels -/

/-- The elements after some work items have run. -/
theorem read_foldl_write {f : ℕ → List (BitVec w)} (hf : ∀ i, (f i).length = limbSize)
    (order : List ℕ) (horder : ∀ i ∈ order, i < size) (x : Tensor w limbSize size) {i : ℕ}
    (hi : i < size) : (x.fill f order).read i = if i ∈ order then f i else x.read i := by
  induction order generalizing x with
  | nil => rw [if_neg List.not_mem_nil]; rfl
  | cons first order ih =>
      have hfirst := horder first List.mem_cons_self
      have hrest := ih (fun i h => horder i (List.mem_cons_of_mem _ h)) (x.write first (f first))
      rw [fill, List.foldl_cons, ← fill, hrest, x.read_write hfirst hi (hf first)]
      simp only [List.mem_cons]
      split_ifs with hmem heq <;> simp_all

/-- A kernel writes all elements, in any order of its work items. -/
theorem read_fill {f : ℕ → List (BitVec w)} (hf : ∀ i, (f i).length = limbSize)
    {order : List ℕ} (horder : order.Perm (List.range size)) (x : Tensor w limbSize size) {i : ℕ}
    (hi : i < size) : (x.fill f order).read i = f i := by
  have hmem {i : ℕ} : i ∈ order ↔ i < size := horder.mem_iff.trans List.mem_range
  rw [read_foldl_write hf order (fun _ h => hmem.mp h) x hi, if_pos (hmem.mpr hi)]

/-! ## Bytes -/

theorem length_bytes {b : ℕ} (x : Tensor (8 * b) limbSize size) :
    x.bytes.length = byteSize b limbSize size := by
  rw [bytes, List.length_flatMap, List.map_congr_left fun word _ => length_toLeBytes b word,
    List.map_const', List.sum_replicate_nat, x.length_eq, Nat.mul_comm, byteSize]

theorem wordsOfBytes_toLeBytes (b : ℕ) (words : List (BitVec (8 * b))) :
    wordsOfBytes b words.length (words.flatMap (toLeBytes b)) = words := by
  induction words with
  | nil => rfl
  | cons word words ih =>
      have hlength := length_toLeBytes b word
      rw [List.flatMap_cons, List.length_cons, wordsOfBytes, List.take_left' hlength,
        List.drop_left' hlength, ih]
      exact congrArg (· :: words) (fromLeBytes_toLeBytes b word hlength)

/-- What was sent is received. -/
theorem ofBytes_bytes {b : ℕ} (x : Tensor (8 * b) limbSize size) :
    ofBytes b limbSize size x.bytes = x := by
  have h := wordsOfBytes_toLeBytes b x.buffer
  rw [x.length_eq] at h
  exact Tensor.ext h

/-- **A tensor travels.** What a kernel writes has the same bytes on every device, whatever the
memory held before and in whichever order the work items run, as many bytes as are announced; and
where they are received, every element is read as it was written. -/
theorem tensor_travels {b limbSize size : ℕ} (x y : Tensor (8 * b) limbSize size)
    (f : ℕ → List (BitVec (8 * b))) (hf : ∀ i, (f i).length = limbSize) (order order' : List ℕ)
    (horder : order.Perm (List.range size)) (horder' : order'.Perm (List.range size)) :
    (x.fill f order).bytes = (y.fill f order').bytes ∧
      (x.fill f order).bytes.length = byteSize b limbSize size ∧
      ∀ i < size, (ofBytes b limbSize size (x.fill f order).bytes).read i = f i := by
  have hsame : x.fill f order = y.fill f order' := ext_read fun i hi => by
    rw [read_fill hf horder x hi, read_fill hf horder' y hi]
  refine ⟨congrArg bytes hsame, length_bytes _, fun i hi => ?_⟩
  rw [ofBytes_bytes, read_fill hf horder x hi]

/-- Three elements of two limbs, written in two orders. -/
theorem tensor_travels_three :
    let x : Tensor (8 * 1) 2 3 := ofBytes 1 2 3 []
    let f (i : ℕ) : List (BitVec (8 * 1)) := [BitVec.ofNat _ i, BitVec.ofNat _ (i + 16)]
    (x.fill f [2, 0, 1]).bytes = (x.fill f [0, 1, 2]).bytes ∧
      (x.fill f [2, 0, 1]).bytes.length = byteSize 1 2 3 ∧
      ∀ i < 3, (ofBytes 1 2 3 (x.fill f [2, 0, 1]).bytes).read i = f i := by
  intro x f
  have horder : [2, 0, 1].Perm (List.range 3) := by decide
  exact tensor_travels x x f (fun _ => rfl) [2, 0, 1] [0, 1, 2] horder (List.Perm.refl _)

/-- The lowest limbs come first. -/
example : ((ofBytes 1 2 3 []).fill (fun i => [BitVec.ofNat _ i, BitVec.ofNat _ (i + 16)])
    [2, 0, 1]).bytes = [0, 1, 2, 16, 17, 18] := by decide

end Tensor

end Hmpc.Comp
