/-
# Hmpc.Random.Keystream -- number generators as readers of the stream of their engine

Whatever block a number generator holds and wherever it stands in it, its requests are answered
with the words of that block from there on and then with the blocks of its engine: `uniforms_eq`. A
generator that was made with parameters stands at the beginning of the blocks that the calls of an
engine with these parameters return.
-/
import Hmpc.Crypto.Cipher
import Hmpc.Crypto.Engine
import Hmpc.Lib.BufferedStream

namespace Hmpc.Random.NumberGenerator

open Hmpc.Core Hmpc.Crypto Hmpc.Lib Hmpc.Lib.Loops Hmpc.Crypto.ChachaType

variable (t : ChachaType)

theorem length_block (state : List Word) : (t.block state).length = blockSize := by
  unfold ChachaType.block
  rw [List.length_map, List.length_range]

/-- The engine as a source of blocks. -/
def source : BufferedStream.Source (List Word) Word where
  next := t.next
  blockSize := blockSize
  blockSize_pos := by decide
  length_next := length_block t

/-- A generator holds a block and stands inside of it. -/
structure Ready (g : NumberGenerator) : Prop where
  length_state : g.state.length = blockSize
  blockIndex_lt : g.blockIndex < blockSize

variable {t} {g : NumberGenerator}

/-- The reader that a generator is. -/
def reader (t : ChachaType) (g : NumberGenerator) (h : g.Ready) :
    BufferedStream.Reader (source t) where
  state := g.engine
  block := g.state
  index := g.blockIndex
  length_block := h.length_state
  index_lt := h.blockIndex_lt

/-- The word that is drawn after `k` others. -/
def upcoming (t : ChachaType) (g : NumberGenerator) (k : ℕ) : Word :=
  (if (g.blockIndex + k) / blockSize = 0 then g.state
    else (source t).blockAfter g.engine ((g.blockIndex + k) / blockSize - 1)).getD
      ((g.blockIndex + k) % blockSize) 0

theorem upcoming_reader (h : g.Ready) (k : ℕ) : (reader t g h).upcoming k = upcoming t g k := by
  show ((reader t g h).blockAt ((g.blockIndex + k) / blockSize)).getD _ _ = _
  unfold upcoming
  cases (g.blockIndex + k) / blockSize <;> rfl

theorem Ready.drawWord (h : g.Ready) : (drawWord t g).2.Ready := by
  unfold NumberGenerator.drawWord
  dsimp only
  split_ifs with hfull
  · exact ⟨length_block t _, Nat.zero_lt_succ 15⟩
  · exact ⟨h.length_state, Nat.lt_of_le_of_ne h.blockIndex_lt hfull⟩

theorem drawWord_eq (g : NumberGenerator) : drawWord t g = (g.state.getD g.blockIndex 0,
    if g.blockIndex + 1 = blockSize then ⟨(t.next g.engine).2, (t.next g.engine).1, 0⟩
    else ⟨g.engine, g.state, g.blockIndex + 1⟩) := by
  unfold NumberGenerator.drawWord
  dsimp only
  split_ifs <;> rfl

theorem drawWord_word (g : NumberGenerator) :
    (drawWord t g).1 = g.state.getD g.blockIndex 0 := congrArg Prod.fst (drawWord_eq g)

/-- One word is one read. -/
theorem read_reader (h : g.Ready) : (reader t g h).read =
    ((drawWord t g).1, reader t (drawWord t g).2 h.drawWord) := by
  by_cases hfull : g.blockIndex + 1 = blockSize
  · rw [BufferedStream.Reader.read_last (r := reader t g h) hfull]
    refine Prod.ext ?_ (BufferedStream.Reader.ext ?_ ?_ ?_) <;>
      (simp only [reader, drawWord_eq, if_pos hfull]; rfl)
  · rw [BufferedStream.Reader.read_inside (r := reader t g h) hfull]
    refine Prod.ext ?_ (BufferedStream.Reader.ext ?_ ?_ ?_)
    · exact (drawWord_word g).symm
    all_goals simp only [reader, drawWord_eq, if_neg hfull]

theorem drawWord_fst (h : g.Ready) : (drawWord t g).1 = upcoming t g 0 := by
  rw [← upcoming_reader h, ← BufferedStream.Reader.read_fst, read_reader h]

/-- The generator after `n` words. -/
def skip (t : ChachaType) (n : ℕ) (g : NumberGenerator) : NumberGenerator :=
  (fun g => (drawWord t g).2)^[n] g

theorem skip_succ (n : ℕ) (g : NumberGenerator) :
    skip t (n + 1) g = (drawWord t (skip t n g)).2 := Function.iterate_succ_apply' _ _ _

theorem skip_skip (m n : ℕ) (g : NumberGenerator) : skip t n (skip t m g) = skip t (m + n) g := by
  rw [Nat.add_comm]
  exact (Function.iterate_add_apply _ _ _ _).symm

theorem Ready.skip (h : g.Ready) (n : ℕ) : (skip t n g).Ready := by
  induction n with
  | zero => exact h
  | succ n ih =>
      rw [skip_succ]
      exact ih.drawWord

/-- Many words are many reads. -/
theorem readMany_reader (h : g.Ready) (n : ℕ) :
    ((reader t g h).readMany n).2 = reader t (skip t n g) (h.skip n) := by
  induction n with
  | zero => rfl
  | succ n ih =>
      show ((reader t g h).readMany n).2.read.2 = _
      rw [ih, read_reader]
      simp only [skip_succ]

theorem upcoming_skip (h : g.Ready) (n k : ℕ) :
    upcoming t (skip t n g) k = upcoming t g (n + k) := by
  rw [← upcoming_reader (h.skip n), ← readMany_reader h n,
    BufferedStream.Reader.upcoming_readMany, upcoming_reader h]

/-! ## Requests -/

/-- Whatever a request does with its words, they are the next ones. -/
theorem scan_drawWord {τ : Type*} (h : g.Ready) (store : ℕ → Word → τ → τ) (n : ℕ) (result : τ) :
    scanRange n (fun i s =>
      let drawn := drawWord t s.2
      (store i drawn.1 s.1, drawn.2)) (result, g) =
      (scanRange n (fun i => store i (upcoming t g i)) result, skip t n g) := by
  induction n with
  | zero => rfl
  | succ n ih =>
      simp only [scanRange, ih]
      rw [drawWord_fst (h.skip n), upcoming_skip h, Nat.add_zero, ← skip_succ]

/-- `uniform(result)` for a limb span: the next words. -/
theorem uniformLimbs_eq (h : g.Ready) (n : ℕ) :
    uniformLimbs t n g = ((List.range n).map (upcoming t g), skip t n g) := by
  rw [← scanRange_set 0 (upcoming t g) n]
  exact scan_drawWord h (fun i word (l : List Word) => l.set i word) n _

/-- `uniform(result)` for a bit span: the next words, the last one made normal. -/
theorem uniform_eq (h : g.Ready) (result : BitSpan 32) :
    uniform t result g =
      (scanRange (result.type.limbSize 32) (fun i l =>
        result.type.write i (upcoming t g i) .normal l) result.limbs,
        skip t (result.type.limbSize 32) g) :=
  scan_drawWord h (fun i word l => result.type.write i word .normal l) _ _

theorem length_uniform (t : ChachaType) (result : BitSpan 32) (g : NumberGenerator) :
    (uniform t result g).1.length = result.limbs.length := by
  apply scanRange_induction
    (P := fun _ (s : List Word × NumberGenerator) => s.1.length = result.limbs.length)
  · rfl
  · intro i _ s hs
    exact (result.type.length_write _ _ _ _).trans hs

/-! ## Runs of requests -/

/-- What is asked of `uniform`: to fill a limb span, or a bit span. -/
inductive Request
  | limbs (limbSize : ℕ)
  | bits (result : BitSpan 32)

namespace Request

def size : Request → ℕ
  | limbs n => n
  | bits result => result.type.limbSize 32

/-- `uniform` -/
def serve (t : ChachaType) : Request → NumberGenerator → List Word × NumberGenerator
  | limbs n, g => uniformLimbs t n g
  | bits result, g => uniform t result g

/-- The result that is filled with these words. In the last limb of a bit span, the bits above its
size are cleared if it is unsigned; if it is signed, they are set with the sign bit of the word, and
stay as they were drawn without it. -/
def fill : Request → List Word → List Word
  | limbs _, words => words
  | bits result, words =>
      scanRange (result.type.limbSize 32) (fun i l =>
        result.type.write i (words.getD i 0) .normal l) result.limbs

theorem serve_eq (request : Request) (h : g.Ready) :
    request.serve t g =
      (request.fill ((reader t g h).readMany request.size).1, skip t request.size g) := by
  have hwords : ((reader t g h).readMany request.size).1 =
      (List.range request.size).map (upcoming t g) := by
    rw [BufferedStream.Reader.readMany_fst]
    exact List.map_congr_left fun k _ => upcoming_reader h k
  rw [hwords]
  cases request with
  | limbs n => exact uniformLimbs_eq h n
  | bits result =>
      show uniform t result g = _
      rw [uniform_eq h]
      refine Prod.ext (scanRange_congr ?_ _) rfl
      intro i hi l
      have hword : ((List.range (result.type.limbSize 32)).map (upcoming t g)).getD i 0 =
          upcoming t g i := by
        rw [List.getD_eq_getElem?_getD, List.getElem?_map, List.getElem?_range hi]
        rfl
      simp only [size, hword]

/-- One request after the other. -/
def serveAll (t : ChachaType) : List Request → NumberGenerator →
    List (List Word) × NumberGenerator
  | [], g => ([], g)
  | request :: requests, g =>
      let (result, g) := request.serve t g
      let (results, g) := serveAll t requests g
      (result :: results, g)

theorem serveAll_snd (requests : List Request) (h : g.Ready) :
    (serveAll t requests g).2 = skip t (requests.map size).sum g := by
  induction requests generalizing g with
  | nil => rfl
  | cons request requests ih =>
      show (serveAll t requests (request.serve t g).2).2 = _
      rw [serve_eq request h, ih (h.skip _), skip_skip, List.map_cons, List.sum_cons]

theorem serveAll_fst (requests : List Request) (h : g.Ready) :
    (serveAll t requests g).1 =
      List.zipWith fill requests ((reader t g h).readAll (requests.map size)).1 := by
  induction requests generalizing g with
  | nil => rfl
  | cons request requests ih =>
      show (request.serve t g).1 :: (serveAll t requests (request.serve t g).2).1 = _
      rw [serve_eq request h, ih (h.skip _), ← readMany_reader h]
      rfl

/-- **Requests of any sizes split the stream.** -/
theorem serveAll_eq (requests : List Request) (h : g.Ready) :
    ∃ chunks : List (List Word), chunks.map List.length = requests.map size ∧
      chunks.flatten = (List.range (requests.map size).sum).map (upcoming t g) ∧
      serveAll t requests g =
        (List.zipWith fill requests chunks, skip t (requests.map size).sum g) := by
  refine ⟨((reader t g h).readAll (requests.map size)).1,
    BufferedStream.Reader.length_readAll _ _, ?_,
    Prod.ext (serveAll_fst requests h) (serveAll_snd requests h)⟩
  rw [(BufferedStream.Reader.readAll_eq _ _).1, BufferedStream.Reader.readMany_fst]
  exact List.map_congr_left fun k _ => upcoming_reader h k

end Request

/-! ## Generators of an engine -/

/-- `number_generator(args...)`: an engine, and its first block. -/
def ofEngine {t : ChachaType} (e : Chacha t) : NumberGenerator := ⟨e.next.2.state, e.next.1, 0⟩

/-- `param(param)` -/
def setParam {t : ChachaType} (e : Chacha t) (param : t.Param) : NumberGenerator :=
  ofEngine (e.setParam param)

theorem ofEngine_construct (param : t.Param) :
    ofEngine (Chacha.construct param) = construct t param := rfl

theorem Ready.ofEngine (e : Chacha t) : (ofEngine e).Ready :=
  ⟨length_block t _, Nat.zero_lt_succ 15⟩

theorem after_state (e : Chacha t) (k : ℕ) :
    (e.after k).state = (fun s => (t.next s).2)^[k] e.state := by
  induction k with
  | zero => rfl
  | succ k ih =>
      rw [Chacha.after, Function.iterate_succ_apply', Function.iterate_succ_apply', ← ih]
      rfl

/-- The words of a new generator are those of the calls of its engine. -/
theorem upcoming_ofEngine (e : Chacha t) (k : ℕ) :
    upcoming t (ofEngine e) k = (e.call (k / blockSize)).getD (k % blockSize) 0 := by
  have hcall (j : ℕ) : e.call j = (source t).blockAfter e.state j := by
    show (t.next (e.after j).state).1 = _
    rw [after_state]
    rfl
  have hindex : (ofEngine e).blockIndex + k = k := Nat.zero_add k
  unfold upcoming
  rw [hindex, hcall]
  split_ifs with hfirst
  · rw [hfirst]
    rfl
  · obtain ⟨j, hj⟩ := Nat.exists_eq_succ_of_ne_zero hfirst
    rw [hj]
    rfl

end Hmpc.Random.NumberGenerator
