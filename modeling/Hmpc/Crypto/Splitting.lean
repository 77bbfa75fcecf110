/-
# Hmpc.Crypto.Splitting -- encryption in pieces

The limbs that are encrypted need not be words: the mask is drawn word by word and written into
limbs of their type. So an encryption takes whole words, and what is left of its last word is lost;
the encryption of a concatenation is the concatenation of encryptions if every piece but the last
one fills its words: `encAll_eq`. Limbs that are words always do.
-/
import Hmpc.Core.ConvertingLimbSpan
import Hmpc.Random.Keystream

namespace Hmpc.Crypto.Cipher

open Hmpc.Core Hmpc.Random Hmpc.Lib.Loops Hmpc.Crypto.ChachaType NumberGenerator
  ConvertingLimbSpan

variable (t : ChachaType) {w : ℕ}

/-- `generator.uniform(convert_limb_span<value_type>(mask))` -/
def drawMask (w n : ℕ) (g : NumberGenerator) : List (BitVec w) × NumberGenerator :=
  scanRange (limbSize 32 w n) (fun i (s : List (BitVec w) × NumberGenerator) =>
    let drawn := drawWord t s.2
    (write n i drawn.1 s.1, drawn.2)) (List.replicate n 0, g)

/-- `enc(result, plaintext)` for limbs of any width that words are made of. -/
def encLimbs (plaintext before : List (BitVec w)) (cipher : Cipher) :
    List (BitVec w) × Cipher :=
  let n := plaintext.length
  let (mask, generator) := drawMask t w n cipher
  (Num.bitXor (limbType w n) (BitSpan.mk (limbType w n) plaintext).span.source
    (BitSpan.mk (limbType w n) mask).span.source before, generator)

/-- `dec(result, ciphertext)` -/
def decLimbs (ciphertext before : List (BitVec w)) (cipher : Cipher) : List (BitVec w) × Cipher :=
  encLimbs t ciphertext before cipher

/-- One piece after the other, each into a new array. -/
def encAll : List (List (BitVec w)) → Cipher → List (List (BitVec w)) × Cipher
  | [], cipher => ([], cipher)
  | plaintext :: pieces, cipher =>
      let (ciphertext, cipher) := encLimbs t plaintext (List.replicate plaintext.length 0) cipher
      let (ciphertexts, cipher) := encAll pieces cipher
      (ciphertext :: ciphertexts, cipher)

def decAll : List (List (BitVec w)) → Cipher → List (List (BitVec w)) × Cipher
  | [], cipher => ([], cipher)
  | ciphertext :: pieces, cipher =>
      let (plaintext, cipher) := decLimbs t ciphertext (List.replicate ciphertext.length 0) cipher
      let (plaintexts, cipher) := decAll pieces cipher
      (plaintext :: plaintexts, cipher)

variable {t} {g : NumberGenerator}

theorem decAll_eq (pieces : List (List (BitVec w))) (cipher : Cipher) :
    decAll t pieces cipher = encAll t pieces cipher := by
  induction pieces generalizing cipher with
  | nil => rfl
  | cons ciphertext pieces ih =>
      simp only [decAll, encAll, ih]
      rfl

/-- The same mask twice. -/
theorem mapIdx_xor_xor (mask : ℕ → BitVec w) (limbs : List (BitVec w)) :
    (limbs.mapIdx fun j limb => limb ^^^ mask j).mapIdx (fun j limb => limb ^^^ mask j) =
      limbs := by
  apply List.ext_getElem
  · rw [List.length_mapIdx, List.length_mapIdx]
  · intro j _ _
    rw [List.getElem_mapIdx, List.getElem_mapIdx, BitVec.xor_assoc, BitVec.xor_self,
      BitVec.xor_zero]

theorem ratio_word_pos [NeZero w] (hw : w ∣ 32) : 0 < ratio 32 w :=
  have : NeZero 32 := ⟨by decide⟩
  ratio_pos hw

section

variable [NeZero w] (hw : w ∣ 32)
include hw

/-- The mask is made of the next words. -/
theorem drawMask_eq (h : g.Ready) (n : ℕ) : drawMask t w n g =
    ((List.range n).map (limbOf w (upcoming t g)), skip t (limbSizeFor (ratio 32 w) n) g) := by
  have : NeZero 32 := ⟨by decide⟩
  unfold drawMask
  rw [← limbSize_eq hw n, ← writeAll_eq hw]
  exact scan_drawWord h (write n) _ _

/-- Every limb is combined with the one of the mask. -/
theorem encLimbs_eq (h : g.Ready) (plaintext : List (BitVec w)) {before : List (BitVec w)}
    (hbefore : before.length = plaintext.length) : encLimbs t plaintext before g =
      (plaintext.mapIdx fun j limb => limb ^^^ limbOf w (upcoming t g) j,
        skip t (limbSizeFor (ratio 32 w) plaintext.length) g) := by
  unfold encLimbs
  dsimp only
  rw [drawMask_eq hw h]
  refine Prod.ext ?_ rfl
  have hlen : before.length = (limbType w plaintext.length).limbSize w :=
    hbefore.trans (limbSize_limbType _).symm
  apply List.ext_getElem
  · rw [Num.length_bitXor, List.length_mapIdx, hbefore]
  intro j hj hplain
  rw [List.length_mapIdx] at hplain
  have hlimb : j < (limbType w plaintext.length).limbSize w := by rwa [limbSize_limbType]
  -- one limb of the combination; the span has no sign, so it is stored as it is
  have hone := Num.getD_bitXor (limbType w plaintext.length)
    (BitSpan.mk (limbType w plaintext.length) plaintext).span
    (BitSpan.mk (limbType w plaintext.length)
      ((List.range plaintext.length).map (limbOf w (upcoming t g)))).span hlen hlimb
  have hread (limbs : List (BitVec w)) :
      ((BitSpan.mk (limbType w plaintext.length) limbs).span.read j).value = limbs.getD j 0 :=
    Num.read_unnormal _ _ _ hlimb
  have hstored (limb : BitVec w) : (limbType w plaintext.length).stored j limb
      (limbType w plaintext.length).normalType = limb := by
    simp [SpanType.stored, limbType]
  rw [hread, hread, hstored, List.getD_eq_getElem?_getD, List.getElem?_eq_getElem hj] at hone
  rw [List.getElem_mapIdx]
  simpa [List.getD_eq_getElem?_getD, hplain] using hone

/-- The mask of what comes later, when the limbs before it have filled their words. -/
theorem limbOf_skip (h : g.Ready) (n j : ℕ) : limbOf w (upcoming t (skip t n g)) j =
    limbOf w (upcoming t g) (ratio 32 w * n + j) := by
  unfold limbOf
  rw [upcoming_skip h, Nat.mul_add_div (ratio_word_pos hw), Nat.mul_add_mod]

theorem encAll_cons (h : g.Ready) (plaintext : List (BitVec w)) (pieces : List (List (BitVec w))) :
    encAll t (plaintext :: pieces) g =
      let rest := encAll t pieces (skip t (limbSizeFor (ratio 32 w) plaintext.length) g)
      ((plaintext.mapIdx fun j limb => limb ^^^ limbOf w (upcoming t g) j) :: rest.1,
        rest.2) := by
  rw [encAll, encLimbs_eq hw h plaintext List.length_replicate]

/-- Every piece takes the words that it fills, the last one as a whole. -/
theorem encAll_snd (h : g.Ready) (pieces : List (List (BitVec w))) :
    (encAll t pieces g).2 =
      skip t (pieces.map fun piece => limbSizeFor (ratio 32 w) piece.length).sum g := by
  induction pieces generalizing g with
  | nil => rfl
  | cons plaintext pieces ih =>
      rw [encAll_cons hw h]
      show (encAll t pieces _).2 = _
      rw [ih (h.skip _), skip_skip, List.map_cons, List.sum_cons]

/-- A piece is decrypted where it was encrypted. -/
theorem decAll_encAll (h : g.Ready) (pieces : List (List (BitVec w))) :
    decAll t (encAll t pieces g).1 g = (pieces, (encAll t pieces g).2) := by
  rw [decAll_eq]
  induction pieces generalizing g with
  | nil => rfl
  | cons plaintext pieces ih =>
      rw [encAll_cons hw h]
      dsimp only
      rw [encAll_cons hw h, List.length_mapIdx, ih (h.skip _)]
      dsimp only
      rw [mapIdx_xor_xor]

end

/-! ## Pieces of whole words -/

/-- Every piece that limbs follow fills its words. -/
def WholeWords : List (List (BitVec w)) → Prop
  | [] => True
  | piece :: pieces =>
      (pieces.flatten = [] ∨ ratio 32 w ∣ piece.length) ∧ WholeWords pieces

instance instDecidableWholeWords :
    (pieces : List (List (BitVec w))) → Decidable (WholeWords pieces)
  | [] => inferInstanceAs (Decidable True)
  | piece :: pieces =>
      have := instDecidableWholeWords pieces
      inferInstanceAs (Decidable ((pieces.flatten = [] ∨ ratio 32 w ∣ piece.length) ∧
        WholeWords pieces))

/-- Words always do. -/
theorem wholeWords_of_words (pieces : List (List Word)) : WholeWords pieces := by
  induction pieces with
  | nil => trivial
  | cons piece pieces ih => exact ⟨.inr (Nat.one_dvd piece.length), ih⟩

section

variable [NeZero w] (hw : w ∣ 32)
include hw

/-- A piece that fills its words. -/
theorem mul_limbSizeFor {n : ℕ} (h : ratio 32 w ∣ n) :
    ratio 32 w * limbSizeFor (ratio 32 w) n = n := by
  obtain ⟨k, rfl⟩ := h
  have : NeZero (ratio 32 w) := ⟨(ratio_word_pos hw).ne'⟩
  rw [limbSizeFor_mul]

/-- The pieces go on where the ones before have ended. -/
theorem encAll_flatten (h : g.Ready) {pieces : List (List (BitVec w))}
    (hwhole : WholeWords pieces) : (encAll t pieces g).1.flatten =
      pieces.flatten.mapIdx fun j limb => limb ^^^ limbOf w (upcoming t g) j := by
  induction pieces generalizing g with
  | nil => rfl
  | cons plaintext pieces ih =>
      rw [encAll_cons hw h]
      dsimp only
      rw [List.flatten_cons, ih (h.skip _) hwhole.2, List.flatten_cons (L := pieces),
        List.mapIdx_append]
      obtain hempty | hfull := hwhole.1
      · rw [hempty]
        rfl
      · simp only [limbOf_skip hw h, mul_limbSizeFor hw hfull, Nat.add_comm plaintext.length]

theorem sum_limbSizeFor {pieces : List (List (BitVec w))} (hwhole : WholeWords pieces) :
    (pieces.map fun piece => limbSizeFor (ratio 32 w) piece.length).sum =
      limbSizeFor (ratio 32 w) pieces.flatten.length := by
  have : NeZero (ratio 32 w) := ⟨(ratio_word_pos hw).ne'⟩
  induction pieces with
  | nil => exact (limbSizeFor_zero).symm
  | cons piece pieces ih =>
      rw [List.map_cons, List.sum_cons, ih hwhole.2, List.flatten_cons, List.length_append]
      obtain hempty | ⟨k, hk⟩ := hwhole.1
      · rw [hempty, List.length_nil, limbSizeFor_zero]
        rfl
      · rw [hk, limbSizeFor_mul, limbSizeFor_mul_add]

/-- **One encryption, or one for each piece.** -/
theorem encAll_eq (h : g.Ready) {pieces : List (List (BitVec w))} (hwhole : WholeWords pieces)
    {before : List (BitVec w)} (hbefore : before.length = pieces.flatten.length) :
    ((encAll t pieces g).1.flatten, (encAll t pieces g).2) =
      encLimbs t pieces.flatten before g := by
  rw [encLimbs_eq hw h _ hbefore, encAll_flatten hw h hwhole, encAll_snd hw h,
    sum_limbSizeFor hw hwhole]

/-- **Decryption in other pieces.** -/
theorem decAll_flatten (h : g.Ready) {pieces ciphertexts : List (List (BitVec w))}
    (hwhole : WholeWords pieces) (hother : WholeWords ciphertexts)
    (hsame : ciphertexts.flatten = (encAll t pieces g).1.flatten) :
    (decAll t ciphertexts g).1.flatten = pieces.flatten := by
  rw [decAll_eq, encAll_flatten hw h hother, hsame, encAll_flatten hw h hwhole, mapIdx_xor_xor]

end

/-- Limbs that are words are encrypted as every span of words is. -/
theorem encLimbs_words (plaintext before : List Word) (cipher : Cipher) :
    encLimbs t plaintext before cipher = enc t (limbType 32 plaintext.length)
      (BitSpan.mk (limbType 32 plaintext.length) plaintext).span.source before cipher := by
  have : NeZero 32 := ⟨by decide⟩
  have hmask : drawMask t 32 plaintext.length cipher =
      uniformLimbs t plaintext.length cipher := by
    unfold drawMask uniformLimbs
    rw [limbSize, if_pos rfl]
    refine scanRange_congr (fun i _ s => ?_) _
    simp [write]
  unfold encLimbs enc
  rw [limbSize_limbType]
  dsimp only
  rw [hmask]

/-- **Splitting.** Whatever is asked of a generator, its index stays inside of its block, and the
words of its stream go to the requests in order, none left out and none used twice; so where a
request ends and the next one begins does not matter. A cipher takes whole words. Its pieces are
decrypted where they were encrypted, and pieces that fill their words may be put together or cut in
another way. -/
theorem keystreamSplitting (t : ChachaType) {g : NumberGenerator} (h : g.Ready) :
    (∀ n, (skip t n g).Ready) ∧
    (∀ requests : List Request,
      (∃ chunks : List (List Word), chunks.map List.length = requests.map Request.size ∧
        chunks.flatten = (List.range (requests.map Request.size).sum).map (upcoming t g) ∧
        Request.serveAll t requests g = (List.zipWith Request.fill requests chunks,
          skip t (requests.map Request.size).sum g)) ∧
      ∀ k, upcoming t (Request.serveAll t requests g).2 k =
        upcoming t g ((requests.map Request.size).sum + k)) ∧
    (∀ (e : Chacha t) (k : ℕ), (ofEngine e).Ready ∧
      upcoming t (ofEngine e) k = (e.call (k / blockSize)).getD (k % blockSize) 0) ∧
    (∀ (e : Chacha t) (param : t.Param), setParam e param = NumberGenerator.construct t param ∧
      ofEngine (Chacha.construct param) = NumberGenerator.construct t param) ∧
    (∀ (w : ℕ) [NeZero w], w ∣ 32 → ∀ pieces : List (List (BitVec w)),
      decAll t (encAll t pieces g).1 g = (pieces, (encAll t pieces g).2) ∧
      (WholeWords pieces →
        (∀ before : List (BitVec w), before.length = pieces.flatten.length →
          ((encAll t pieces g).1.flatten, (encAll t pieces g).2) =
            encLimbs t pieces.flatten before g) ∧
        ∀ ciphertexts, WholeWords ciphertexts →
          ciphertexts.flatten = (encAll t pieces g).1.flatten →
          (decAll t ciphertexts g).1.flatten = pieces.flatten)) ∧
    ∀ pieces : List (List Word), WholeWords pieces := by
  refine ⟨h.skip, fun requests => ⟨Request.serveAll_eq requests h, fun k => ?_⟩,
    fun e k => ⟨Ready.ofEngine e, upcoming_ofEngine e k⟩,
    fun e param => ⟨?_, ofEngine_construct param⟩,
    fun w _ hw pieces => ⟨decAll_encAll hw h pieces, fun hwhole => ⟨fun before hbefore =>
      encAll_eq hw h hwhole hbefore, fun ciphertexts hother hsame =>
      decAll_flatten hw h hwhole hother hsame⟩⟩, wholeWords_of_words⟩
  · rw [Request.serveAll_snd requests h, upcoming_skip h]
  · rw [setParam, Chacha.setParam_eq]
    exact ofEngine_construct param

def zeroParam : chacha20.Param where
  key := List.replicate 8 0
  nonce := List.replicate 3 0
  counter := [0]
  key_size := rfl
  nonce_size := rfl
  counter_size := rfl

/-- A generator that begins. -/
def zeroGenerator : NumberGenerator := NumberGenerator.construct chacha20 zeroParam

theorem zeroGenerator_ready : zeroGenerator.Ready := Ready.ofEngine (Chacha.construct zeroParam)

theorem keystreamSplitting_bytes :
    zeroGenerator.Ready ∧ 8 ∣ 32 ∧ WholeWords [[1, 2, 3, 4], [5#8, 6]] ∧
      ((encAll chacha20 [[1, 2, 3, 4], [5#8, 6]] zeroGenerator).1.flatten,
        (encAll chacha20 [[1, 2, 3, 4], [5#8, 6]] zeroGenerator).2) =
      encLimbs chacha20 [1, 2, 3, 4, 5#8, 6] (List.replicate 6 0) zeroGenerator :=
  have hwhole : WholeWords [[1, 2, 3, 4], [5#8, 6]] := by decide
  ⟨zeroGenerator_ready, by decide, hwhole,
    (((keystreamSplitting chacha20 zeroGenerator_ready).2.2.2.2.1 8 (by decide) _).2
      hwhole).1 _ rfl⟩

/-- Bytes that do not fill a word: every piece begins with a new word. -/
theorem encAll_bytes :
    ¬∀ pieces : List (List (BitVec 8)), (encAll chacha20 pieces zeroGenerator).1.flatten =
      (encLimbs chacha20 pieces.flatten (List.replicate pieces.flatten.length 0)
        zeroGenerator).1 := by
  intro h
  have hpieces : (encAll chacha20 [[0#8], [0#8]] zeroGenerator).1.flatten = [0x76, 0xa0] := by
    decide +kernel
  have hwhole : (encLimbs chacha20 [0#8, 0#8] (List.replicate 2 0) zeroGenerator).1 =
      [0x76, 0xb8] := by
    decide +kernel
  have hsame := hpieces.symm.trans ((h [[0], [0]]).trans hwhole)
  exact absurd hsame (by decide)

end Hmpc.Crypto.Cipher
