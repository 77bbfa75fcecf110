/-
# Hmpc.Expr.Cipher -- encryption and decryption of all elements of an expression

`enc_expression` and `dec_expression` cut the limbs of all elements into batches that are whole
blocks of the cipher and whole elements. Each work item does a batch with a cipher of its own, which
is made with the block of the batch as its counter. The last batch may reach beyond the elements.

What a work item does is a list of accesses: it reads the inner expression, draws words of the
keystream and writes the result. The work items of a kernel run in any order, interleaved in any
way, so that a run is any permutation of all accesses.
-/
import Hmpc.Comp.RandomCapability
import Hmpc.Crypto.Cipher
import Hmpc.Expr.Pointwise
import Hmpc.Lib.Parallel

namespace Hmpc.Expr

open Hmpc.Core Hmpc.Crypto Hmpc.Random Hmpc.Lib Hmpc.Lib.Loops Hmpc.Lib.Limbs
open Hmpc.Crypto.ChachaType NumberGenerator

/-! ## Batches -/

/-- `batch_size`, for elements of so many limbs. -/
def batchSize (limbSize : ℕ) : ℕ := blockSize.lcm limbSize

def elementsPerBatch (limbSize : ℕ) : ℕ := batchSize limbSize / limbSize

def blocksPerBatch (limbSize : ℕ) : ℕ := batchSize limbSize / blockSize

/-- `div_ceil` -/
def divCeil (numerator denominator : ℕ) : ℕ := (numerator + denominator - 1) / denominator

section

variable {limbSize : ℕ}

theorem elementsPerBatch_mul : elementsPerBatch limbSize * limbSize = batchSize limbSize :=
  Nat.div_mul_cancel (Nat.dvd_lcm_right _ _)

theorem blocksPerBatch_mul : blocksPerBatch limbSize * blockSize = batchSize limbSize :=
  Nat.div_mul_cancel (Nat.dvd_lcm_left _ _)

theorem batchSize_pos (hpos : 0 < limbSize) : 0 < batchSize limbSize :=
  Nat.lcm_pos (by decide) hpos

/-- The batches of `n` elements are those that have a first element. -/
theorem lt_divCeil_iff (hpos : 0 < limbSize) {n b : ℕ} :
    b < divCeil (n * limbSize) (batchSize limbSize) ↔ b * elementsPerBatch limbSize < n := by
  have hbatch := batchSize_pos hpos
  have hmul : b * batchSize limbSize = b * elementsPerBatch limbSize * limbSize := by
    rw [Nat.mul_assoc, elementsPerBatch_mul]
  have hceil : b < divCeil (n * limbSize) (batchSize limbSize) ↔
      b * batchSize limbSize < n * limbSize := by
    rw [divCeil, ← Nat.succ_le_iff, Nat.le_div_iff_mul_le hbatch, Nat.succ_mul]
    omega
  rw [hceil, hmul, Nat.mul_lt_mul_right hpos]

/-- All elements are in some batch. -/
theorem le_divCeil_mul (hpos : 0 < limbSize) (n : ℕ) :
    n ≤ divCeil (n * limbSize) (batchSize limbSize) * elementsPerBatch limbSize := by
  by_contra hlt
  exact Nat.lt_irrefl _ ((lt_divCeil_iff hpos).mpr (Nat.lt_of_not_le hlt))

/-- The batches hold no more than the elements exactly if the elements fill whole batches. -/
theorem divCeil_mul_le_iff (hpos : 0 < limbSize) (n : ℕ) :
    divCeil (n * limbSize) (batchSize limbSize) * elementsPerBatch limbSize ≤ n ↔
      elementsPerBatch limbSize ∣ n := by
  have hle := le_divCeil_mul hpos n
  constructor
  · intro h
    exact Dvd.intro_left _ (Nat.le_antisymm h hle)
  · rintro ⟨k, rfl⟩
    -- with `k` full batches there is no batch number `k`
    have hcount :
        ¬ k < divCeil (elementsPerBatch limbSize * k * limbSize) (batchSize limbSize) := by
      rw [lt_divCeil_iff hpos, Nat.mul_comm]
      omega
    rw [Nat.mul_comm (elementsPerBatch limbSize) k]
    rw [Nat.mul_comm (elementsPerBatch limbSize) k] at hcount
    exact Nat.mul_le_mul_right _ (Nat.le_of_not_lt hcount)

end

/-! ## Accesses -/

inductive Access (α : Type) where
  | read (i : ℕ)
  | draw (position : Random.Position)
  | write (i : ℕ) (value : α)

section

variable {α : Type}

/-- With so many elements to read and so many to write. -/
def Access.Inside (reads writes : ℕ) : Access α → Prop
  | .read i => i < reads
  | .draw _ => True
  | .write i _ => i < writes

def Access.write? : Access α → Option (ℕ × α)
  | .write i value => some (i, value)
  | _ => none

def Access.draw? : Access α → Option Random.Position
  | .draw position => some position
  | _ => none

/-- What a run writes, in order. -/
def writes (run : List (Access α)) : List (ℕ × α) := run.filterMap Access.write?

/-- The words of the keystream a run draws. -/
def draws (run : List (Access α)) : List Random.Position := run.filterMap Access.draw?

end

/-! ## The cipher of an expression -/

variable (t : ChachaType)

/-- `cipher_storage` -/
structure CipherStorage where
  key : List Word
  nonce : List Word
  key_size : key.length = keySize
  nonce_size : nonce.length = t.nonceSize

theorem length_counter (index : Size) :
    (Num.bitCopy (limbType 32 t.counterSize) (sizeLimbSpan 32 index).source
      (List.replicate t.counterSize 0)).length = t.counterSize :=
  (Num.length_bitCopy _ _ _).trans List.length_replicate

/-- `cipher(index)` -/
def CipherStorage.cipher (storage : CipherStorage t) (index : Size) : Cipher :=
  NumberGenerator.construct t
    { key := storage.key
      nonce := storage.nonce
      counter := Num.bitCopy (limbType 32 t.counterSize) (sizeLimbSpan 32 index).source
        (List.replicate t.counterSize 0)
      key_size := storage.key_size
      nonce_size := storage.nonce_size
      counter_size := length_counter t index }

variable {t}

/-- A new cipher stands at the start of the block of its index. -/
theorem CipherStorage.drawnAt (storage : CipherStorage t) (index : Size) :
    DrawnAt t storage.key storage.nonce index.toNat 0 (storage.cipher t index) :=
  Comp.drawnAt_construct
    ⟨storage.key, storage.nonce, storage.key_size, storage.nonce_size⟩ index

/-- The place of a word in the stream that begins with counter 0. -/
def CipherStorage.place (storage : CipherStorage t) (k : ℕ) : Random.Position :=
  ⟨storage.nonce, k / blockSize % t.blockCount, k % blockSize⟩

theorem CipherStorage.consumed_eq (storage : CipherStorage t) {start n : ℕ} {cipher : Cipher}
    (h : DrawnAt t storage.key storage.nonce start n cipher) (count : ℕ) :
    cipher.consumed t count =
      (List.range count).map fun j => storage.place (start * blockSize + n + j) := by
  rw [h.consumed storage.key_size]
  apply List.map_congr_left
  intro j _
  unfold CipherStorage.place blockSize
  rw [show (start * 16 + n + j) / 16 = start + (n + j) / 16 by omega,
    show (start * 16 + n + j) % 16 = (n + j) % 16 by omega]

/-! ## `enc_expression` -/

/-- A value of the element type. -/
abbrev Element (type : SpanType) := {x : BitArray 32 // x.type = type ∧ x.Readable}

variable (t) in
/-- `enc_expression`: `shape` is the element shape of the inner expression, and the bytes of the
result are counted by a `size`. -/
structure EncExpression where
  cipher : CipherStorage t
  element : SpanType
  shape : Shape
  sameElementShape : Bool
  inner : Position → Element element
  bitSize_pos : 0 < element.bitSize
  bytes_lt : 4 * (shape.size * element.limbSize 32) < 2 ^ 64

namespace EncExpression

variable (e : EncExpression t)

def limbSize : ℕ := e.element.limbSize 32

/-- The index the inner expression is evaluated at. -/
def position (i : ℕ) : Position :=
  if e.sameElementShape then .linear i else .multidimensional (fromLinearIndex i e.shape)

/-- The limbs of element `i`. -/
def encrypt (i : ℕ) (cipher : Cipher) : List Word × Cipher :=
  cipher.enc t (limbType 32 e.limbSize) (e.inner (e.position i)).1.span.source
    (List.replicate e.limbSize 0)

/-- What is done for element `i`. -/
def encElement (i : ℕ) (cipher : Cipher) : List (Access Word) × Cipher :=
  let (encryptedLimbs, after) := e.encrypt i cipher
  (.read i :: (cipher.consumed t e.limbSize).map Access.draw ++
    (List.range e.limbSize).map fun j =>
      .write (i * e.limbSize + j) (encryptedLimbs.getD j 0), after)

/-- The work item of batch `b`. -/
def batch (b : ℕ) : List (Access Word) :=
  (scanRange (elementsPerBatch e.limbSize) (fun n s =>
    let i := b * elementsPerBatch e.limbSize + n
    if i < e.shape.size then
      let (accesses, after) := e.encElement i s.2
      (s.1 ++ accesses, after)
    else s)
    ([], e.cipher.cipher t (BitVec.ofNat 64 (b * blocksPerBatch e.limbSize)))).1

/-- All accesses of the kernel. -/
def accesses : List (Access Word) :=
  (List.range (divCeil (e.shape.size * e.limbSize) (batchSize e.limbSize))).flatMap e.batch

/-- All elements, encrypted one after the other with one cipher from counter 0 on. -/
def sequential : List Word :=
  (scanRange e.shape.size (fun i s =>
    let (encryptedLimbs, after) := e.encrypt i s.2
    (s.1 ++ encryptedLimbs, after)) ([], e.cipher.cipher t 0)).1

end EncExpression

/-! ## `dec_expression` -/

variable (t) in
/-- `dec_expression`: `shape` is the element shape of the inner expression, of limbs, whose last
extent is the limbs of an element. -/
structure DecExpression where
  cipher : CipherStorage t
  element : SpanType
  shape : Shape
  sameElementShape : Bool
  inner : Position → Word
  bitSize_pos : 0 < element.bitSize
  extent_last : shape.getLast? = some (.static (element.limbSize 32))
  bytes_lt : 4 * shape.size < 2 ^ 64

namespace DecExpression

variable (e : DecExpression t)

def limbSize : ℕ := e.element.limbSize 32

def position (i : ℕ) : Position :=
  if e.sameElementShape then .linear i else .multidimensional (fromLinearIndex i e.shape)

/-- The elements of the result: the shape without its last extent. -/
def elementCount : ℕ := Shape.size e.shape.dropLast

def decrypt (i : ℕ) (cipher : Cipher) : BitArray 32 × Cipher :=
  let encryptedLimbs := (List.range e.limbSize).map fun l =>
    e.inner (e.position (i * e.limbSize + l))
  let decrypted := cipher.dec t e.element
    (BitSpan.mk (limbType 32 e.limbSize) encryptedLimbs).span.source (List.replicate e.limbSize 0)
  (⟨⟨e.element, decrypted.1⟩, (Cipher.length_enc _ _ _ _).trans List.length_replicate⟩, decrypted.2)

/-- What is done for element `i`. -/
def decElement (i : ℕ) (cipher : Cipher) : List (Access (BitArray 32)) × Cipher :=
  let (element, after) := e.decrypt i cipher
  ((List.range e.limbSize).map (fun l => .read (i * e.limbSize + l)) ++
    (cipher.consumed t e.limbSize).map Access.draw ++ [.write i element], after)

/-- The work item of batch `b`. -/
def batch (b : ℕ) : List (Access (BitArray 32)) :=
  (scanRange (elementsPerBatch e.limbSize) (fun n s =>
    let (accesses, after) := e.decElement (b * elementsPerBatch e.limbSize + n) s.2
    (s.1 ++ accesses, after))
    ([], e.cipher.cipher t (BitVec.ofNat 64 (b * blocksPerBatch e.limbSize)))).1

/-- All accesses of the kernel. -/
def accesses : List (Access (BitArray 32)) :=
  (List.range (divCeil e.shape.size (batchSize e.limbSize))).flatMap e.batch

end DecExpression

/-- Decryption, with the same cipher, of the tensor that encryption has written. -/
def EncExpression.decExpression (e : EncExpression t) (sameElementShape : Bool)
    (tensor : ℕ → Word) : DecExpression t where
  cipher := e.cipher
  element := e.element
  shape := e.shape ++ [.static (e.element.limbSize 32)]
  sameElementShape := sameElementShape
  inner position :=
    (readTensor tensor 0 (e.shape ++ [.static (e.element.limbSize 32)]) position).getD 0
  bitSize_pos := e.bitSize_pos
  extent_last := List.getLast?_concat
  bytes_lt := by
    have hlt := e.bytes_lt
    rw [Shape.size_eq] at hlt ⊢
    simpa [Shape.counts, Extent.count] using hlt

/-! ## What the kernels do -/

/-- The counter of a batch, in words of the stream. -/
theorem toNat_counter {limbSize n b : ℕ} (hpos : 0 < limbSize)
    (hbytes : 4 * (n * limbSize) < 2 ^ 64)
    (hb : b < divCeil (n * limbSize) (batchSize limbSize)) :
    (BitVec.ofNat 64 (b * blocksPerBatch limbSize)).toNat * blockSize =
      b * elementsPerBatch limbSize * limbSize := by
  have hfirst := (lt_divCeil_iff hpos).mp hb
  have hlimbs : b * elementsPerBatch limbSize * limbSize < n * limbSize :=
    Nat.mul_lt_mul_of_pos_right hfirst hpos
  have hmul : b * blocksPerBatch limbSize * blockSize =
      b * elementsPerBatch limbSize * limbSize := by
    rw [Nat.mul_assoc, Nat.mul_assoc, blocksPerBatch_mul, elementsPerBatch_mul]
  have hlt : b * blocksPerBatch limbSize < 2 ^ 64 := by
    unfold blockSize at hmul
    omega
  rw [BitVec.toNat_ofNat, Nat.mod_eq_of_lt hlt, hmul]

theorem limbSize_pos {type : SpanType} (h : 0 < type.bitSize) : 0 < type.limbSize 32 :=
  Nat.pos_of_ne_zero fun hzero => by
    have hbits := (limbSizeFor_le_iff (w := 32) type.bitSize 0).mp (Nat.le_of_eq hzero)
    omega

/-- Places that are each written once have what is written there. -/
theorem store_of_perm {run accesses : List (Access α)} (hrun : run.Perm accesses) {n : ℕ}
    {f : ℕ → α} (hwrites : writes accesses = (List.range n).map fun k => (k, f k))
    (buffer : ℕ → α) {k : ℕ} (hk : k < n) : store (writes run) buffer k = f k := by
  have hperm : (writes run).Perm (writes accesses) := hrun.filterMap _
  rw [hwrites] at hperm
  apply store_of_mem
  · rw [(hperm.map Prod.fst).nodup_iff, List.map_map]
    exact (List.map_id _).symm ▸ List.nodup_range
  · exact hperm.mem_iff.mpr (List.mem_map.mpr ⟨k, List.mem_range.mpr hk, rfl⟩)

namespace EncExpression

variable (e : EncExpression t)

theorem limbSize_pos : 0 < e.limbSize := Expr.limbSize_pos e.bitSize_pos

/-- Limb `k` of the result. -/
def limb (k : ℕ) : Word :=
  (e.inner (e.position (k / e.limbSize))).1.limbs.getD (k % e.limbSize) 0 ^^^
    keystream t e.cipher.key e.cipher.nonce k

/-- Limb `j` of element `i`. -/
theorem limb_add (i : ℕ) {j : ℕ} (hj : j < e.limbSize) : e.limb (i * e.limbSize + j) =
    (e.inner (e.position i)).1.limbs.getD j 0 ^^^
      keystream t e.cipher.key e.cipher.nonce (i * e.limbSize + j) := by
  have hdiv : (i * e.limbSize + j) / e.limbSize = i := by
    rw [Nat.mul_comm, Nat.mul_add_div e.limbSize_pos, Nat.div_eq_of_lt hj, Nat.add_zero]
  have hmod : (i * e.limbSize + j) % e.limbSize = j := by
    rw [Nat.mul_comm, Nat.mul_add_mod, Nat.mod_eq_of_lt hj]
  rw [limb, hdiv, hmod]

theorem encrypt_eq {start n i : ℕ} {cipher : Cipher}
    (h : DrawnAt t e.cipher.key e.cipher.nonce start n cipher)
    (hplace : start * blockSize + n = i * e.limbSize) :
    (e.encrypt i cipher).1 = (List.range e.limbSize).map (fun j => e.limb (i * e.limbSize + j)) ∧
      DrawnAt t e.cipher.key e.cipher.nonce start (n + e.limbSize) (e.encrypt i cipher).2 := by
  have hlimbs : (limbType 32 e.limbSize).limbSize 32 = e.limbSize := limbSize_limbType _
  have hlength : (List.replicate e.limbSize (0 : Word)).length =
      (limbType 32 e.limbSize).limbSize 32 := by rw [List.length_replicate, hlimbs]
  obtain ⟨hencrypted, hdrawn⟩ := Cipher.enc_eq e.cipher.key_size h (limbType 32 e.limbSize)
    (e.inner (e.position i)).1.span hlength
  rw [hlimbs] at hdrawn
  refine ⟨?_, hdrawn⟩
  rw [encrypt, hencrypted, Cipher.combine, hlimbs, hplace]
  apply List.map_congr_left
  intro j hj
  have hj := List.mem_range.mp hj
  have hread : ((e.inner (e.position i)).1.span.read j).value =
      (e.inner (e.position i)).1.limbs.getD j 0 := by
    apply Cipher.read_span
    rw [(e.inner (e.position i)).2.1]
    exact hj
  rw [hread, e.limb_add i hj]
  have hstored (v : Word) : (limbType 32 e.limbSize).stored j v .unnormal = v := by
    simp [SpanType.stored]
  exact hstored _

/-- The accesses of element `i`. -/
def accessesOf (i : ℕ) : List (Access Word) :=
  .read i :: (List.range e.limbSize).map (fun j => .draw (e.cipher.place (i * e.limbSize + j))) ++
    (List.range e.limbSize).map fun j =>
      .write (i * e.limbSize + j) (e.limb (i * e.limbSize + j))

theorem encElement_eq {start n i : ℕ} {cipher : Cipher}
    (h : DrawnAt t e.cipher.key e.cipher.nonce start n cipher)
    (hplace : start * blockSize + n = i * e.limbSize) :
    (e.encElement i cipher).1 = e.accessesOf i ∧
      DrawnAt t e.cipher.key e.cipher.nonce start (n + e.limbSize) (e.encElement i cipher).2 := by
  obtain ⟨hencrypted, hdrawn⟩ := e.encrypt_eq h hplace
  refine ⟨?_, hdrawn⟩
  show .read i :: (cipher.consumed t e.limbSize).map Access.draw ++
    (List.range e.limbSize).map (fun j =>
      .write (i * e.limbSize + j) ((e.encrypt i cipher).1.getD j 0)) = _
  rw [accessesOf, e.cipher.consumed_eq h, hplace, List.map_map]
  congr 1
  apply List.map_congr_left
  intro j hj
  rw [hencrypted, List.getD_eq_getElem?_getD, List.getElem?_map,
    List.getElem?_range (List.mem_range.mp hj)]
  rfl

/-- A work item does the elements of its batch, as far as there are any. -/
theorem batch_eq {b : ℕ}
    (hb : b < divCeil (e.shape.size * e.limbSize) (batchSize e.limbSize)) :
    e.batch b = (List.range (elementsPerBatch e.limbSize)).flatMap fun n =>
      if b * elementsPerBatch e.limbSize + n < e.shape.size then
        e.accessesOf (b * elementsPerBatch e.limbSize + n)
      else [] := by
  have hcounter := toNat_counter e.limbSize_pos e.bytes_lt hb
  set start := (BitVec.ofNat 64 (b * blocksPerBatch e.limbSize)).toNat with hstart
  have hscan := scanRange_induction (n := elementsPerBatch e.limbSize)
    (f := fun n (s : List (Access Word) × Cipher) =>
      let i := b * elementsPerBatch e.limbSize + n
      if i < e.shape.size then
        let (accesses, after) := e.encElement i s.2
        (s.1 ++ accesses, after)
      else s)
    (s := ([], e.cipher.cipher t (BitVec.ofNat 64 (b * blocksPerBatch e.limbSize))))
    (P := fun n s => s.1 = (List.range n).flatMap (fun n =>
        if b * elementsPerBatch e.limbSize + n < e.shape.size then
          e.accessesOf (b * elementsPerBatch e.limbSize + n)
        else []) ∧
      -- once the elements have ended, the cipher stays where it is
      (b * elementsPerBatch e.limbSize + n ≤ e.shape.size →
        DrawnAt t e.cipher.key e.cipher.nonce start (n * e.limbSize) s.2))
    ⟨rfl, fun _ => by rw [Nat.zero_mul]; exact e.cipher.drawnAt _⟩ ?_
  · exact hscan.1
  · rintro n - ⟨accesses, cipher⟩ ⟨haccesses, hdrawn⟩
    dsimp only at haccesses hdrawn ⊢
    rw [List.range_succ, List.flatMap_append, List.flatMap_singleton]
    split_ifs with hi
    · have hplace : start * blockSize + n * e.limbSize =
          (b * elementsPerBatch e.limbSize + n) * e.limbSize := by
        rw [hcounter, Nat.add_mul]
      obtain ⟨hone, hnext⟩ := e.encElement_eq (hdrawn hi.le) hplace
      refine ⟨by rw [haccesses, hone], fun _ => ?_⟩
      rw [Nat.succ_mul]
      exact hnext
    · exact ⟨by rw [haccesses, List.append_nil], fun hle => absurd hle (by omega)⟩

/-- **The kernel does every element once.** -/
theorem accesses_eq : e.accesses = (List.range e.shape.size).flatMap e.accessesOf := by
  have hbatches : e.accesses =
      (List.range (divCeil (e.shape.size * e.limbSize) (batchSize e.limbSize))).flatMap fun b =>
        (List.range (elementsPerBatch e.limbSize)).flatMap fun n =>
          if b * elementsPerBatch e.limbSize + n < e.shape.size then
            e.accessesOf (b * elementsPerBatch e.limbSize + n)
          else [] :=
    List.flatMap_congr fun b hb => e.batch_eq (List.mem_range.mp hb)
  rw [hbatches, flatMap_range_mul _ _ fun i => if i < e.shape.size then e.accessesOf i else []]
  exact flatMap_range_of_le (le_divCeil_mul e.limbSize_pos _) _

theorem writes_accesses :
    writes e.accesses = (List.range (e.shape.size * e.limbSize)).map fun k => (k, e.limb k) := by
  have hone (i : ℕ) : (e.accessesOf i).filterMap Access.write? =
      (List.range e.limbSize).map fun j => (i * e.limbSize + j, e.limb (i * e.limbSize + j)) := by
    rw [accessesOf, List.cons_append, List.filterMap_cons_none rfl, List.filterMap_append,
      List.filterMap_map, List.filterMap_map]
    simp [Function.comp_def, Access.write?]
  rw [writes, accesses_eq, List.filterMap_flatMap, List.flatMap_congr fun i _ => hone i]
  exact flatMap_range_map _ _ fun k => (k, e.limb k)

theorem draws_accesses :
    draws e.accesses = (List.range (e.shape.size * e.limbSize)).map e.cipher.place := by
  have hone (i : ℕ) : (e.accessesOf i).filterMap Access.draw? =
      (List.range e.limbSize).map fun j => e.cipher.place (i * e.limbSize + j) := by
    rw [accessesOf, List.cons_append, List.filterMap_cons_none rfl, List.filterMap_append,
      List.filterMap_map, List.filterMap_map]
    simp [Function.comp_def, Access.draw?]
  rw [draws, accesses_eq, List.filterMap_flatMap, List.flatMap_congr fun i _ => hone i]
  exact flatMap_range_map _ _ _

/-- Every index and every place is inside. -/
theorem inside_accesses :
    ∀ access ∈ e.accesses, access.Inside e.shape.size (e.shape.size * e.limbSize) := by
  intro access haccess
  rw [accesses_eq] at haccess
  obtain ⟨i, hi, haccess⟩ := List.mem_flatMap.mp haccess
  have hi := List.mem_range.mp hi
  simp only [accessesOf, List.cons_append, List.mem_cons, List.mem_append, List.mem_map,
    List.mem_range] at haccess
  rcases haccess with rfl | ⟨j, -, rfl⟩ | ⟨j, hj, rfl⟩
  · exact hi
  · trivial
  · -- a limb of an element below the last one, or of the last one
    have hnext : (i + 1) * e.limbSize ≤ e.shape.size * e.limbSize := Nat.mul_le_mul_right _ hi
    rw [Nat.succ_mul] at hnext
    show i * e.limbSize + j < _
    omega

/-- The tensor after a run, whatever was in it before. -/
theorem store_writes {run : List (Access Word)} (hrun : run.Perm e.accesses) (tensor : ℕ → Word)
    {k : ℕ} (hk : k < e.shape.size * e.limbSize) : store (writes run) tensor k = e.limb k :=
  store_of_perm hrun e.writes_accesses tensor hk

/-- Encryption with one cipher gives the same limbs. -/
theorem sequential_eq : e.sequential = (List.range (e.shape.size * e.limbSize)).map e.limb := by
  have hscan := scanRange_induction (n := e.shape.size)
    (f := fun i (s : List Word × Cipher) =>
      let (encryptedLimbs, after) := e.encrypt i s.2
      (s.1 ++ encryptedLimbs, after)) (s := ([], e.cipher.cipher t 0))
    (P := fun i s => s.1 = (List.range (i * e.limbSize)).map e.limb ∧
      DrawnAt t e.cipher.key e.cipher.nonce 0 (i * e.limbSize) s.2)
    ⟨by rw [Nat.zero_mul]; rfl, by rw [Nat.zero_mul]; exact e.cipher.drawnAt 0⟩ ?_
  · exact hscan.1
  · rintro i - ⟨limbs, cipher⟩ ⟨hlimbs, hdrawn⟩
    obtain ⟨hencrypted, hnext⟩ := e.encrypt_eq hdrawn (by rw [Nat.zero_mul, Nat.zero_add])
    dsimp only at hlimbs ⊢
    refine ⟨?_, ?_⟩
    · rw [hlimbs, hencrypted, Nat.succ_mul, List.range_add, List.map_append, List.map_map]
      rfl
    · rw [Nat.succ_mul]
      exact hnext

/-- A keystream that does not come round again has every word in one place. -/
theorem nodup_draws (hblocks : divCeil (e.shape.size * e.limbSize) blockSize ≤ t.blockCount) :
    (draws e.accesses).Nodup := by
  rw [draws_accesses]
  refine List.Nodup.map_on (fun k hk l hl heq => ?_) List.nodup_range
  have hk := List.mem_range.mp hk
  have hl := List.mem_range.mp hl
  have hblock {k : ℕ} (hk : k < e.shape.size * e.limbSize) : k / blockSize < t.blockCount := by
    refine Nat.lt_of_lt_of_le ?_ hblocks
    unfold divCeil blockSize
    omega
  injection heq with _ hcounter hword
  rw [Nat.mod_eq_of_lt (hblock hk), Nat.mod_eq_of_lt (hblock hl)] at hcounter
  rw [← Nat.div_add_mod k blockSize, ← Nat.div_add_mod l blockSize, hcounter, hword]

end EncExpression

/-- **Parallel encryption is sequential encryption.** In whatever order the work items run, the
tensor holds the limbs that one cipher gives for all elements from counter 0 on, each combined with
a word of its own while the keystream does not repeat. -/
theorem enc_parallel_eq_sequential (e : EncExpression t) (run : List (Access Word))
    (hrun : run.Perm e.accesses) (tensor : ℕ → Word)
    (hblocks : divCeil (e.shape.size * e.limbSize) blockSize ≤ t.blockCount) :
    (List.range (e.shape.size * e.limbSize)).map (store (writes run) tensor) = e.sequential ∧
      (draws run).Nodup ∧ (draws run).length = e.shape.size * e.limbSize := by
  have hdraws : (draws run).Perm (draws e.accesses) := hrun.filterMap _
  refine ⟨?_, hdraws.nodup_iff.mpr (e.nodup_draws hblocks), ?_⟩
  · rw [e.sequential_eq]
    exact List.map_congr_left fun k hk => e.store_writes hrun tensor (List.mem_range.mp hk)
  · rw [hdraws.length_eq, e.draws_accesses, List.length_map, List.length_range]

/-- A number of 32 bits. -/
def wordArray (v : Word) : BitArray 32 where
  type := ⟨32, .unsigned, .normal⟩
  limbs := [v]
  limb_size := by simp [SpanType.limbSize, limbSizeFor]

theorem readable_wordArray (v : Word) : (wordArray v).Readable where
  signed_pos h := by cases h
  isNormal _ h := absurd (show 32 % 32 = 0 from rfl) h

/-- The first `n` numbers. -/
def numbers (n : ℕ) (hbytes : 4 * (n * 1) < 2 ^ 64) : EncExpression chacha20 where
  cipher := ⟨[42, 0, 0, 0, 0, 0, 0, 0], [1, 0, 0], rfl, rfl⟩
  element := ⟨32, .unsigned, .normal⟩
  shape := [.dynamic n]
  sameElementShape := true
  inner
    | .linear k => ⟨wordArray (BitVec.ofNat 32 k), rfl, readable_wordArray _⟩
    | .multidimensional _ => ⟨wordArray 0, rfl, readable_wordArray _⟩
  bitSize_pos := by decide
  bytes_lt := by
    rw [show Shape.size [.dynamic n] = n by simp [Shape.size_eq, Shape.counts, Extent.count]]
    exact hbytes

theorem bytes_twenty : 4 * (20 * 1) < 2 ^ 64 := by decide

/-- Twenty numbers are two batches, the second of which is not full. -/
theorem enc_parallel_eq_sequential_numbers :
    (List.range 20).map (store (writes (numbers 20 bytes_twenty).accesses) fun _ => 0) =
        (numbers 20 bytes_twenty).sequential ∧
      (draws (numbers 20 bytes_twenty).accesses).Nodup ∧
      (draws (numbers 20 bytes_twenty).accesses).length = 20 :=
  enc_parallel_eq_sequential (numbers 20 bytes_twenty) _ (List.Perm.refl _) (fun _ => 0)
    (by decide +kernel)

namespace DecExpression

variable (e : DecExpression t)

theorem limbSize_pos : 0 < e.limbSize := Expr.limbSize_pos e.bitSize_pos

theorem size_shape : e.shape.size = e.elementCount * e.limbSize := by
  obtain ⟨s, hs⟩ := List.getLast?_eq_some_iff.mp e.extent_last
  rw [elementCount, Shape.size_eq, Shape.size_eq, hs, List.dropLast_concat, Shape.counts,
    List.map_append, List.prod_append]
  simp [Shape.counts, Extent.count, limbSize]

/-- Element `i` of the result. -/
def decrypted (i : ℕ) : BitArray 32 where
  type := e.element
  limbs := Cipher.combine t e.cipher.key e.cipher.nonce e.element
    (fun j => e.inner (e.position (i * e.limbSize + j))) (i * e.limbSize)
  limb_size := by simp [Cipher.combine]

theorem decrypt_eq {start n i : ℕ} {cipher : Cipher}
    (h : DrawnAt t e.cipher.key e.cipher.nonce start n cipher)
    (hplace : start * blockSize + n = i * e.limbSize) :
    (e.decrypt i cipher).1 = e.decrypted i ∧
      DrawnAt t e.cipher.key e.cipher.nonce start (n + e.limbSize) (e.decrypt i cipher).2 := by
  obtain ⟨hdecrypted, hdrawn⟩ := Cipher.enc_eq e.cipher.key_size h e.element
    (BitSpan.mk (limbType 32 e.limbSize) ((List.range e.limbSize).map fun l =>
      e.inner (e.position (i * e.limbSize + l)))).span
    (show (List.replicate e.limbSize (0 : Word)).length = _ from List.length_replicate)
  refine ⟨?_, hdrawn⟩
  have htype : (e.decrypt i cipher).1.type = (e.decrypted i).type := rfl
  refine BitArray.eq_of_limbs htype (hdecrypted.trans ?_)
  rw [hplace]
  apply List.map_congr_left
  intro j hj
  have hj : j < e.limbSize := List.mem_range.mp hj
  dsimp only
  rw [Cipher.read_limbs _ hj, List.getD_eq_getElem?_getD, List.getElem?_map,
    List.getElem?_range hj]
  rfl

/-- The accesses of element `i`. -/
def accessesOf (i : ℕ) : List (Access (BitArray 32)) :=
  (List.range e.limbSize).map (fun l => .read (i * e.limbSize + l)) ++
    (List.range e.limbSize).map (fun j => .draw (e.cipher.place (i * e.limbSize + j))) ++
    [.write i (e.decrypted i)]

theorem decElement_eq {start n i : ℕ} {cipher : Cipher}
    (h : DrawnAt t e.cipher.key e.cipher.nonce start n cipher)
    (hplace : start * blockSize + n = i * e.limbSize) :
    (e.decElement i cipher).1 = e.accessesOf i ∧
      DrawnAt t e.cipher.key e.cipher.nonce start (n + e.limbSize) (e.decElement i cipher).2 := by
  obtain ⟨hdecrypted, hdrawn⟩ := e.decrypt_eq h hplace
  refine ⟨?_, hdrawn⟩
  show (List.range e.limbSize).map (fun l => .read (i * e.limbSize + l)) ++
    (cipher.consumed t e.limbSize).map Access.draw ++ [.write i (e.decrypt i cipher).1] = _
  rw [accessesOf, e.cipher.consumed_eq h, hplace, List.map_map, hdecrypted]
  rfl

/-- A work item does all elements its batch has room for. -/
theorem batch_eq {b : ℕ} (hb : b < divCeil e.shape.size (batchSize e.limbSize)) :
    e.batch b = (List.range (elementsPerBatch e.limbSize)).flatMap fun n =>
      e.accessesOf (b * elementsPerBatch e.limbSize + n) := by
  have hbytes := e.bytes_lt
  rw [e.size_shape] at hb hbytes
  have hcounter := toNat_counter e.limbSize_pos hbytes hb
  set start := (BitVec.ofNat 64 (b * blocksPerBatch e.limbSize)).toNat with hstart
  have hscan := scanRange_induction (n := elementsPerBatch e.limbSize)
    (f := fun n (s : List (Access (BitArray 32)) × Cipher) =>
      let (accesses, after) := e.decElement (b * elementsPerBatch e.limbSize + n) s.2
      (s.1 ++ accesses, after))
    (s := ([], e.cipher.cipher t (BitVec.ofNat 64 (b * blocksPerBatch e.limbSize))))
    (P := fun n s => s.1 = (List.range n).flatMap (fun n =>
        e.accessesOf (b * elementsPerBatch e.limbSize + n)) ∧
      DrawnAt t e.cipher.key e.cipher.nonce start (n * e.limbSize) s.2)
    ⟨rfl, by rw [Nat.zero_mul]; exact e.cipher.drawnAt _⟩ ?_
  · exact hscan.1
  · rintro n - ⟨accesses, cipher⟩ ⟨haccesses, hdrawn⟩
    have hplace : start * blockSize + n * e.limbSize =
        (b * elementsPerBatch e.limbSize + n) * e.limbSize := by
      rw [hcounter, Nat.add_mul]
    obtain ⟨hone, hnext⟩ := e.decElement_eq hdrawn hplace
    dsimp only at haccesses ⊢
    rw [List.range_succ, List.flatMap_append, List.flatMap_singleton]
    refine ⟨by rw [haccesses, hone], ?_⟩
    rw [Nat.succ_mul]
    exact hnext

/-- **The kernel does as many elements as its batches have room for.** -/
theorem accesses_eq : e.accesses =
    (List.range (divCeil (e.elementCount * e.limbSize) (batchSize e.limbSize) *
      elementsPerBatch e.limbSize)).flatMap e.accessesOf := by
  rw [accesses, List.flatMap_congr fun b hb => e.batch_eq (List.mem_range.mp hb), e.size_shape]
  exact flatMap_range_mul _ _ _

theorem writes_accesses : writes e.accesses =
    (List.range (divCeil (e.elementCount * e.limbSize) (batchSize e.limbSize) *
      elementsPerBatch e.limbSize)).map fun i => (i, e.decrypted i) := by
  have hone (i : ℕ) : (e.accessesOf i).filterMap Access.write? = [(i, e.decrypted i)] := by
    rw [accessesOf, List.filterMap_append, List.filterMap_append, List.filterMap_map,
      List.filterMap_map]
    simp [Function.comp_def, Access.write?]
  rw [writes, accesses_eq, List.filterMap_flatMap, List.flatMap_congr fun i _ => hone i,
    List.map_eq_flatMap]

/-- The result after a run. -/
theorem store_writes {run : List (Access (BitArray 32))} (hrun : run.Perm e.accesses)
    (result : ℕ → BitArray 32) {i : ℕ} (hi : i < e.elementCount) :
    store (writes run) result i = e.decrypted i :=
  store_of_perm hrun e.writes_accesses result (hi.trans_le (le_divCeil_mul e.limbSize_pos _))

/-- The accesses are inside exactly if the elements fill whole batches. -/
theorem inside_accesses_iff :
    (∀ access ∈ e.accesses, access.Inside e.shape.size e.elementCount) ↔
      elementsPerBatch e.limbSize ∣ e.elementCount := by
  rw [← divCeil_mul_le_iff e.limbSize_pos, accesses_eq]
  constructor
  · intro h
    by_contra hover
    -- the element behind the last one is written
    have hwrite : .write e.elementCount (e.decrypted e.elementCount) ∈
        e.accessesOf e.elementCount :=
      List.mem_append_right _ (List.mem_singleton_self _)
    have hinside := h _ (List.mem_flatMap.mpr
      ⟨e.elementCount, List.mem_range.mpr (Nat.lt_of_not_le hover), hwrite⟩)
    exact Nat.lt_irrefl _ hinside
  · intro hle access haccess
    obtain ⟨i, hi, haccess⟩ := List.mem_flatMap.mp haccess
    have hi := List.mem_range.mp hi
    simp only [accessesOf, List.mem_append, List.mem_map, List.mem_range,
      List.mem_singleton] at haccess
    rcases haccess with (⟨l, hl, rfl⟩ | ⟨j, -, rfl⟩) | rfl
    · have hnext : (i + 1) * e.limbSize ≤ e.elementCount * e.limbSize :=
        Nat.mul_le_mul_right _ (by omega)
      rw [Nat.succ_mul] at hnext
      show i * e.limbSize + l < e.shape.size
      rw [e.size_shape]
      omega
    · trivial
    · exact Nat.lt_of_lt_of_le hi hle

end DecExpression

/-! ## Encryption and decryption -/

/-- A tensor of scalars at the index that stands for element `k`. -/
theorem readTensor_position (tensor : ℕ → Word) {s : Shape} (hrank : s ≠ []) {k : ℕ}
    (hk : k < s.size) (sameElementShape : Bool) :
    readTensor tensor 0 s
      (if sameElementShape then .linear k else .multidimensional (fromLinearIndex k s)) =
      some (tensor k) := by
  cases sameElementShape with
  | true =>
      have hmany : ¬ (s.length = 0 ∧ 0 ≤ 1) := fun h => hrank (List.eq_nil_of_length_eq_zero h.1)
      rw [if_pos rfl, readTensor, if_neg hmany]
      exact if_pos hk
  | false =>
      have hprod : k < s.counts.prod := by rwa [← Shape.size_eq]
      have hrange := @MixedRadix.inRange_coordinates s.counts (by omega) k
      have hscalar : (s.elementShape 0).Extends s := Shape.Extends.refl s
      rw [if_neg Bool.false_ne_true, fromLinearIndex_eq,
        ArrayExpression.readTensor_mask (Or.inr hscalar) hrange]
      show some (tensor (MixedRadix.offset s.counts (project s _))) = _
      rw [project_coordinates, MixedRadix.offset_coordinates hprod]

namespace EncExpression

variable (e : EncExpression t)

theorem elementCount_decExpression (sameElementShape : Bool) (tensor : ℕ → Word) :
    (e.decExpression sameElementShape tensor).elementCount = e.shape.size := by
  rw [DecExpression.elementCount, decExpression, List.dropLast_concat]

/-- An element comes back from the limbs that encryption has written. -/
theorem decrypted_decExpression (sameElementShape : Bool) {run : List (Access Word)}
    (hrun : run.Perm e.accesses) (tensor : ℕ → Word) {i : ℕ} (hi : i < e.shape.size) :
    (e.decExpression sameElementShape (store (writes run) tensor)).decrypted i =
      (e.inner (e.position i)).1 := by
  obtain ⟨htype, hreadable⟩ := (e.inner (e.position i)).2
  have hlimbs : (e.inner (e.position i)).1.type.limbSize 32 = e.limbSize := by
    rw [htype]
    rfl
  have hsize : Shape.size (e.shape ++ [.static (e.element.limbSize 32)]) =
      e.shape.size * e.limbSize := by
    have hsize := (e.decExpression sameElementShape (store (writes run) tensor)).size_shape
    rwa [e.elementCount_decExpression] at hsize
  refine BitArray.eq_of_limbs htype.symm ?_
  -- combining twice with the same words gives the limbs back
  rw [← @Cipher.combine_combine t e.cipher.key e.cipher.nonce _
    (by rw [htype]; exact e.bitSize_pos) hreadable (fun j => e.limb (i * e.limbSize + j))
    (i * e.limbSize), htype]
  · apply List.map_congr_left
    intro j hj
    have hj : j < e.limbSize := List.mem_range.mp hj
    have hnext : (i + 1) * e.limbSize ≤ e.shape.size * e.limbSize := Nat.mul_le_mul_right _ hi
    rw [Nat.succ_mul] at hnext
    have hk : i * e.limbSize + j < e.shape.size * e.limbSize := by omega
    have hread := readTensor_position (store (writes run) tensor)
      (s := e.shape ++ [.static (e.element.limbSize 32)]) (by simp)
      (lt_of_lt_of_eq hk hsize.symm) sameElementShape
    -- the limb at that place is what the run of the encryption has stored
    have hinner : (e.decExpression sameElementShape (store (writes run) tensor)).inner
        ((e.decExpression sameElementShape (store (writes run) tensor)).position
          (i * e.limbSize + j)) = e.limb (i * e.limbSize + j) := by
      refine (congrArg (Option.getD · 0) hread).trans ?_
      rw [Option.getD_some, e.store_writes hrun tensor hk]
    exact congrArg (fun v => e.element.stored j (v ^^^ _) e.element.normalType) hinner
  · intro j hj
    rw [hlimbs] at hj
    exact e.limb_add i hj

/-- Whatever the order of the work items and the tensors were before: both kernels keep inside
what they read and write, and the elements come back. -/
def RoundTrips (sameElementShape : Bool) : Prop :=
  ∀ (run : List (Access Word)) (tensor : ℕ → Word), run.Perm e.accesses →
    (∀ access ∈ run, access.Inside e.shape.size (e.shape.size * e.limbSize)) ∧
    ∀ (run' : List (Access (BitArray 32))) (result : ℕ → BitArray 32),
      run'.Perm (e.decExpression sameElementShape (store (writes run) tensor)).accesses →
      (∀ access ∈ run', access.Inside (e.shape.size * e.limbSize) e.shape.size) ∧
      ∀ i < e.shape.size, store (writes run') result i = (e.inner (e.position i)).1

end EncExpression

/-- **Decryption inverts encryption within bounds** exactly if the elements fill whole batches. -/
theorem roundTrips_iff (e : EncExpression t) (sameElementShape : Bool) :
    e.RoundTrips sameElementShape ↔ elementsPerBatch e.limbSize ∣ e.shape.size := by
  have hinside (tensor : ℕ → Word) :
      (∀ access ∈ (e.decExpression sameElementShape tensor).accesses,
        access.Inside (e.shape.size * e.limbSize) e.shape.size) ↔
        elementsPerBatch e.limbSize ∣ e.shape.size := by
    have hiff := (e.decExpression sameElementShape tensor).inside_accesses_iff
    have hsize := (e.decExpression sameElementShape tensor).size_shape
    rw [e.elementCount_decExpression] at hiff hsize
    rw [hsize] at hiff
    exact hiff
  constructor
  · intro h
    obtain ⟨-, hdec⟩ := h e.accesses (fun _ => 0) (List.Perm.refl _)
    have hlimb :=
      (e.decExpression sameElementShape (store (writes e.accesses) fun _ => 0)).decrypted
    exact (hinside _).mp (hdec _ hlimb (List.Perm.refl _)).1
  · intro hwhole run tensor hrun
    refine ⟨fun access haccess => e.inside_accesses access (hrun.mem_iff.mp haccess),
      fun run' result hrun' => ⟨fun access haccess => ?_, fun i hi => ?_⟩⟩
    · exact (hinside _).mpr hwhole access (hrun'.mem_iff.mp haccess)
    · have hcount := e.elementCount_decExpression sameElementShape (store (writes run) tensor)
      rw [DecExpression.store_writes _ hrun' result (lt_of_lt_of_eq hi hcount.symm)]
      exact e.decrypted_decExpression sameElementShape hrun tensor hi

theorem bytes_one : 4 * (1 * 1) < 2 ^ 64 := by decide

/-- A single number is decrypted in a batch of sixteen. -/
theorem partial_batch_out_of_bounds :
    ¬ ∀ (e : EncExpression chacha20) (sameElementShape : Bool), e.RoundTrips sameElementShape :=
  fun hclaim => absurd ((roundTrips_iff (numbers 1 bytes_one) true).mp (hclaim _ _))
    (by decide +kernel)

end Hmpc.Expr
