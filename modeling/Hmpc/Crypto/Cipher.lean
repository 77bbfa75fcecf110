/-
# Hmpc.Crypto.Cipher -- encryption with the words of an engine

A cipher is a number generator; what it encrypts is combined with the words it draws, a limb with
a word. `keystream` is the stream of a key and a nonce from counter 0 on. A cipher that is made with
a counter and has drawn some words continues in the middle of it: `enc_eq`. Decryption is the same
function, so it undoes encryption at the same place of the stream: `combine_combine`.
-/
import Hmpc.Core.Bitwise
import Hmpc.Random.NumberGenerator

namespace Hmpc.Random.NumberGenerator

open Hmpc.Core Hmpc.Crypto Hmpc.Lib.Loops Hmpc.Crypto.ChachaType

variable (t : ChachaType)

/-- `uniform(result)` for a result of `n` limbs. -/
def uniformLimbs (n : ℕ) (g : NumberGenerator) : List Word × NumberGenerator :=
  scanRange n (fun i s =>
    let drawn := drawWord t s.2
    (s.1.set i drawn.1, drawn.2)) (List.replicate n 0, g)

/-- A word of the stream that begins with counter 0. -/
def keystream (key nonce : List Word) (k : ℕ) : Word :=
  (t.block (t.stateAt key nonce (k / blockSize))).getD (k % blockSize) 0

variable {t} {key nonce : List Word} {start n : ℕ} {g : NumberGenerator}

/-- The next word is the one of the stream. -/
theorem DrawnAt.word_eq_keystream (h : DrawnAt t key nonce start n g) :
    (NumberGenerator.drawWord t g).1 = keystream t key nonce (start * blockSize + n) := by
  rw [h.word, keystream]
  unfold blockSize
  rw [show (start * 16 + n) / 16 = start + n / 16 by omega,
    show (start * 16 + n) % 16 = n % 16 by omega]

theorem DrawnAt.uniformLimbs (hkey : key.length = keySize) (h : DrawnAt t key nonce start n g)
    (m : ℕ) :
    (NumberGenerator.uniformLimbs t m g).1.length = m ∧
      (∀ j < m, (NumberGenerator.uniformLimbs t m g).1.getD j 0 =
        keystream t key nonce (start * blockSize + n + j)) ∧
      DrawnAt t key nonce start (n + m) (NumberGenerator.uniformLimbs t m g).2 := by
  apply scanRange_induction (P := fun i (s : List Word × NumberGenerator) => s.1.length = m ∧
    (∀ j < i, s.1.getD j 0 = keystream t key nonce (start * blockSize + n + j)) ∧
    DrawnAt t key nonce start (n + i) s.2)
  · exact ⟨List.length_replicate, nofun, h⟩
  · rintro i hi s ⟨hlen, hwords, hdrawn⟩
    refine ⟨List.length_set.trans hlen, fun j hj => ?_, hdrawn.drawWord hkey⟩
    rw [getD_set]
    split_ifs with hset
    · rw [hdrawn.word_eq_keystream, hset.1, Nat.add_assoc]
    · exact hwords j (by omega)

end Hmpc.Random.NumberGenerator

namespace Hmpc.Crypto

open Hmpc.Core Hmpc.Random Hmpc.Crypto.ChachaType NumberGenerator

/-- `cipher` -/
abbrev Cipher := NumberGenerator

namespace Cipher

variable (t : ChachaType)

/-- `enc(result, plaintext)`; the limbs of the result, which are `before`, are overwritten. -/
def enc (r : SpanType) (plaintext : Source 32) (before : List Word) (cipher : Cipher) :
    List Word × Cipher :=
  let (mask, generator) := uniformLimbs t (r.limbSize 32) cipher
  (Num.bitXor r plaintext (BitSpan.mk (limbType 32 (r.limbSize 32)) mask).span.source before,
    generator)

/-- `dec(result, ciphertext)` -/
def dec (r : SpanType) (ciphertext : Source 32) (before : List Word) (cipher : Cipher) :
    List Word × Cipher :=
  enc t r ciphertext before cipher

variable {t} {key nonce : List Word} {start n : ℕ} {cipher : Cipher}

/-- A span of limbs reads its limbs. -/
theorem read_limbs {m i : ℕ} (limbs : List Word) (hi : i < m) :
    ((BitSpan.mk (limbType 32 m) limbs).span.read i).value = limbs.getD i 0 := by
  have hlimb : i < limbSizeFor 32 (32 * m) := by rwa [limbSizeFor_mul]
  exact Num.read_unnormal (32 * m) .unsigned limbs hlimb

@[simp] theorem length_enc (r : SpanType) (plaintext : Source 32) (before : List Word)
    (cipher : Cipher) : (enc t r plaintext before cipher).1.length = before.length :=
  Num.length_bitXor _ _ _ _

/-- The limbs of a value, combined with the stream from place `k` on. -/
def combine (t : ChachaType) (key nonce : List Word) (r : SpanType) (limb : ℕ → Word) (k : ℕ) :
    List Word :=
  (List.range (r.limbSize 32)).map fun j =>
    r.stored j (limb j ^^^ keystream t key nonce (k + j)) r.normalType

/-- Every limb is combined with the word of the stream at its place. -/
theorem enc_eq (hkey : key.length = keySize) (h : DrawnAt t key nonce start n cipher)
    (r : SpanType) (plaintext : Span 32) {before : List Word}
    (hlen : before.length = r.limbSize 32) :
    (enc t r plaintext.source before cipher).1 =
        combine t key nonce r (fun j => (plaintext.read j).value) (start * blockSize + n) ∧
      DrawnAt t key nonce start (n + r.limbSize 32) (enc t r plaintext.source before cipher).2 := by
  obtain ⟨-, hwords, hdrawn⟩ := h.uniformLimbs hkey (r.limbSize 32)
  refine ⟨?_, hdrawn⟩
  have hlength := (length_enc (t := t) r plaintext.source before cipher).trans hlen
  apply List.ext_getElem (by simp [hlength, combine])
  intro j hj _
  have hlimb : j < r.limbSize 32 := hlength ▸ hj
  have hone : (enc t r plaintext.source before cipher).1.getD j 0 =
      r.stored j ((plaintext.read j).value ^^^
        keystream t key nonce (start * blockSize + n + j)) r.normalType := by
    show (Num.bitXor r plaintext.source (BitSpan.mk (limbType 32 (r.limbSize 32))
      (uniformLimbs t (r.limbSize 32) cipher).1).span.source before).getD j 0 = _
    rw [Num.getD_bitXor r _ _ hlen hlimb, read_limbs _ hlimb, hwords j hlimb]
  rw [List.getD_eq_getElem?_getD, List.getElem?_eq_getElem hj] at hone
  simpa [combine] using hone

/-- The last limb of a value is stored as it is. -/
theorem stored_limbs {x : BitArray 32} (hpos : 0 < x.type.bitSize) (h : x.Readable) (j : ℕ) :
    x.type.stored j (x.limbs.getD j 0) x.type.normalType = x.limbs.getD j 0 := by
  unfold SpanType.stored
  split_ifs with hlast
  · have hnormal := x.isNormal_lastLimb hpos (h.isNormal hlast.2)
    unfold BitArray.normalLimb BitSpan.signMask BitSpan.sign BitSpan.lastLimb at hnormal
    rw [hlast.1]
    cases hsign : x.type.signedness <;> simpa [hsign] using hnormal
  · rfl

/-- A value is read as its limbs. -/
theorem read_span {x : BitArray 32} {j : ℕ} (hj : j < x.type.limbSize 32) :
    (x.span.read j).value = x.limbs.getD j 0 := by
  show (x.extendedRead j x.type.normalType).value = _
  unfold BitSpan.extendedRead BitSpan.read
  rw [if_pos hj]
  cases hnormal : x.type.normalType <;> simp

/-- **Decryption undoes encryption** at the same place of the stream. -/
theorem combine_combine {x : BitArray 32} (hpos : 0 < x.type.bitSize) (hx : x.Readable)
    {encrypted : ℕ → Word} {k : ℕ} (hencrypted : ∀ j < x.type.limbSize 32,
      encrypted j = x.limbs.getD j 0 ^^^ keystream t key nonce (k + j)) :
    combine t key nonce x.type encrypted k = x.limbs := by
  apply List.ext_getElem (by simp [combine, x.limb_size])
  intro j hj hjx
  have hlimb : j < x.type.limbSize 32 := x.limb_size ▸ hjx
  have hstored := stored_limbs hpos hx j
  rw [List.getD_eq_getElem?_getD, List.getElem?_eq_getElem hjx, Option.getD_some] at hstored
  have hone := hencrypted j hlimb
  rw [List.getD_eq_getElem?_getD, List.getElem?_eq_getElem hjx, Option.getD_some] at hone
  simp only [combine, List.getElem_map, List.getElem_range]
  rw [hone, BitVec.xor_assoc, BitVec.xor_self, BitVec.xor_zero, hstored]

end Cipher

end Hmpc.Crypto
