/-
# Hmpc.Comp.RandomCapability -- the part of the keystream a work item of a queue uses

A queue has one key. Each kernel that needs random numbers gets the current nonce, and the nonce
then moves on by the size of the kernel. A work item starts a generator of its own, with its index
as the block counter: `consumed_eq` says which words it draws. So kernels are kept apart by their
nonces (`run_apart`), and items of one kernel only as far as their indices are: `overlap_iff`.
-/
import Hmpc.Random.NumberGenerator

namespace Hmpc.Comp

open Hmpc.Core Hmpc.Crypto Hmpc.Random Hmpc.Lib.Limbs Hmpc.Lib.Digits Hmpc.Crypto.ChachaType
open NumberGenerator

variable (t : ChachaType)

/-! ## The queue -/

/-- `random_number_generator_state_type` -/
structure RandomState where
  key : List Word
  nonce : List Word
  key_size : key.length = keySize
  nonce_size : nonce.length = t.nonceSize

/-- The state of a new queue. -/
def RandomState.start (key : List Word) (hkey : key.length = keySize) : RandomState t :=
  ⟨key, List.replicate t.nonceSize 0, hkey, List.length_replicate⟩

/-- `add_capability_data`: what a kernel of this size gets, and what is left for the next one. -/
def addCapabilityData (state : RandomState t) (size : Size) : RandomState t × RandomState t :=
  let nonce := (Core.Num.add (limbType 32 t.nonceSize) (ownLimbs 32 t.nonceSize)
    (sizeLimbSpan 32 size).source (MaybeConstant.constant 0) state.nonce).1
  (state, ⟨state.key, nonce, state.key_size, (Num.length_add _ _ _ _ _).trans state.nonce_size⟩)

/-- `params_from` -/
def paramsFrom (data : RandomState t) (index : Size) : t.Param where
  key := data.key
  nonce := data.nonce
  counter := Num.bitCopy (limbType 32 t.counterSize) (sizeLimbSpan 32 index).source
    (List.replicate t.counterSize 0)
  key_size := data.key_size
  nonce_size := data.nonce_size
  counter_size := (Num.length_bitCopy _ _ _).trans List.length_replicate

/-- A work item: the index its capabilities are made with, and the results it asks the generator
to fill, in order. -/
structure Item where
  index : Size
  draws : List (BitSpan 32)

/-- The words an item draws. -/
def Item.words (item : Item) : ℕ := (item.draws.map fun result => result.type.limbSize 32).sum

/-- A kernel: the size it was submitted with, and its work items. -/
structure Kernel where
  size : Size
  items : List Item
  size_pos : items ≠ [] → 0 < size.toNat

/-- The kernels of a queue in order, each with the capability data of its items. -/
def run (state : RandomState t) : List Kernel → List (RandomState t × Kernel)
  | [] => []
  | kernel :: kernels =>
      let (data, state) := addCapabilityData t state kernel.size
      (data, kernel) :: run state kernels

/-- The positions of the words that fill the results. -/
def consumedBy : List (BitSpan 32) → NumberGenerator → List Position
  | [], _ => []
  | result :: draws, g =>
      g.consumed t (result.type.limbSize 32) ++ consumedBy draws (g.uniform t result).2

/-- The positions of the words an item draws. -/
def consumed (data : RandomState t) (item : Item) : List Position :=
  consumedBy t item.draws (NumberGenerator.construct t (paramsFrom t data item.index))

/-- No two work items of a queue draw the same word. -/
def KeystreamDisjoint (state : RandomState t) (kernels : List Kernel) : Prop :=
  ((run t state kernels).flatMap fun (data, kernel) =>
    kernel.items.map (consumed t data)).Pairwise List.Disjoint

/-! ## What an item draws -/

variable {t}

theorem counter_paramsFrom (data : RandomState t) (index : Size) :
    (paramsFrom t data index).counter = ofValue t.counterSize index.toNat :=
  bitCopy_limbs List.length_replicate ((sizeLimbSpan_denotes index).reads _ _)

/-- A new generator stands at the start of the block of its index. -/
theorem drawnAt_construct (data : RandomState t) (index : Size) :
    DrawnAt t data.key data.nonce index.toNat 0
      (NumberGenerator.construct t (paramsFrom t data index)) := by
  have hstate : t.construct (paramsFrom t data index) =
      t.stateAt data.key data.nonce index.toNat := by
    unfold ChachaType.construct stateAt
    rw [counter_paramsFrom]
    rfl
  have hnext := t.next_stateAt data.nonce data.key_size index.toNat
  unfold NumberGenerator.construct
  rw [hstate, hnext]
  constructor <;> rfl

theorem consumedBy_eq {key nonce : List Word} (hkey : key.length = keySize) {start n : ℕ}
    {g : NumberGenerator} (h : DrawnAt t key nonce start n g) (draws : List (BitSpan 32)) :
    consumedBy t draws g =
      (List.range (draws.map fun result => result.type.limbSize 32).sum).map fun i =>
        ⟨nonce, (start + (n + i) / blockSize) % t.blockCount, (n + i) % blockSize⟩ := by
  induction draws generalizing n g with
  | nil => rfl
  | cons result draws ih =>
      rw [consumedBy, h.consumed hkey, ih (h.uniform hkey result), List.map_cons, List.sum_cons,
        List.range_add, List.map_append, List.map_map]
      congr 1
      apply List.map_congr_left
      intro i _
      simp only [Function.comp_apply, Nat.add_assoc]

/-- Item `index` draws the words of the blocks from `index` on. -/
theorem consumed_eq (data : RandomState t) (item : Item) :
    consumed t data item = (List.range item.words).map fun i =>
      ⟨data.nonce, (item.index.toNat + i / blockSize) % t.blockCount, i % blockSize⟩ := by
  have h := consumedBy_eq data.key_size (drawnAt_construct data item.index) item.draws
  simp only [Nat.zero_add] at h
  exact h

theorem mem_consumed {data : RandomState t} {item : Item} {p : Position} :
    p ∈ consumed t data item ↔ ∃ i < item.words,
      p = ⟨data.nonce, (item.index.toNat + i / blockSize) % t.blockCount, i % blockSize⟩ := by
  rw [consumed_eq]
  simp only [List.mem_map, List.mem_range, eq_comm]

/-! ## Items of one kernel -/

variable (t)

/-- How many blocks the second index is ahead of the first one. -/
def ahead (a b : Size) : ℤ := ((b.toNat : ℤ) - a.toNat) % t.blockCount

/-- Both items stop before the block the other one starts with. -/
def Apart (a b : Item) : Prop :=
  a.words = 0 ∨ b.words = 0 ∨
    ((a.words : ℤ) ≤ blockSize * ahead t a.index b.index ∧
      (b.words : ℤ) ≤ blockSize * ahead t b.index a.index)

instance (a b : Item) : Decidable (Apart t a b) :=
  inferInstanceAs (Decidable (_ ∨ _ ∨ _ ∧ _))

/-- The items of a kernel do not reach into each other. -/
def Kernel.Spaced (kernel : Kernel) : Prop := kernel.items.Pairwise (Apart t)

instance (kernel : Kernel) : Decidable (kernel.Spaced t) :=
  inferInstanceAs (Decidable (kernel.items.Pairwise (Apart t)))

variable {t}

theorem blockCount_pos : 0 < t.blockCount := by
  unfold blockCount
  positivity

theorem ahead_nonneg (a b : Size) : 0 ≤ ahead t a b :=
  Int.emod_nonneg _ (by exact_mod_cast blockCount_pos.ne')

/-- Going ahead from an index reaches the other one. -/
theorem add_ahead (a b : Size) :
    (a.toNat + (ahead t a b).toNat) % t.blockCount = b.toNat % t.blockCount := by
  have hahead := Int.toNat_of_nonneg (ahead_nonneg (t := t) a b)
  zify
  rw [hahead, ahead, Int.add_emod_emod, add_sub_cancel]

/-- Nothing short of that does. -/
theorem ahead_le {a b : Size} {i j : ℕ} (hji : j ≤ i)
    (h : (a.toNat + i) % t.blockCount = (b.toNat + j) % t.blockCount) :
    ahead t a b ≤ i - j := by
  have hmod : (a.toNat + i : ℤ) ≡ b.toNat + j [ZMOD t.blockCount] := by exact_mod_cast h
  have hdiff : (b.toNat - a.toNat : ℤ) ≡ i - j [ZMOD t.blockCount] := by
    apply Int.modEq_iff_dvd.mpr
    have hdvd := Int.modEq_iff_dvd.mp hmod.symm
    rw [show (i - j - (b.toNat - a.toNat) : ℤ) = a.toNat + i - (b.toNat + j) by ring]
    exact hdvd
  have hdiv := Int.emod_add_mul_ediv (i - j : ℤ) t.blockCount
  have hquotient : 0 ≤ (t.blockCount : ℤ) * ((i - j) / t.blockCount) := by
    apply mul_nonneg (by omega)
    exact Int.ediv_nonneg (by omega) (by omega)
  unfold ahead
  rw [hdiff]
  omega

/-- Two items that draw words draw a common one exactly if one of them reaches the first block of
the other. -/
theorem disjoint_consumed_iff (data : RandomState t) (a b : Item) :
    List.Disjoint (consumed t data a) (consumed t data b) ↔ Apart t a b := by
  constructor
  · -- the first word of the one that is reached is the common one
    intro hdisjoint
    unfold Apart
    by_contra hnot
    push Not at hnot
    obtain ⟨ha, hb, hreach⟩ := hnot
    have hmeet : ∀ a b : Item, b.words ≠ 0 → blockSize * ahead t a.index b.index < a.words →
        ∃ p, p ∈ consumed t data a ∧ p ∈ consumed t data b := by
      intro a b hb hlt
      refine ⟨⟨data.nonce, (b.index.toNat + 0 / blockSize) % t.blockCount, 0 % blockSize⟩, ?_,
        mem_consumed.mpr ⟨0, Nat.pos_of_ne_zero hb, rfl⟩⟩
      have hahead := Int.toNat_of_nonneg (ahead_nonneg (t := t) a.index b.index)
      have hlt : blockSize * (ahead t a.index b.index).toNat < a.words := by
        zify
        rw [hahead]
        exact hlt
      refine mem_consumed.mpr ⟨blockSize * (ahead t a.index b.index).toNat, hlt, ?_⟩
      have hsize : 0 < blockSize := by decide
      rw [Nat.mul_div_cancel_left _ hsize, add_ahead, Nat.mul_mod_right, Nat.zero_div,
        Nat.zero_mod, Nat.add_zero]
    rcases lt_or_ge (blockSize * ahead t a.index b.index) (a.words : ℤ) with hlt | hge
    · obtain ⟨p, hpa, hpb⟩ := hmeet a b hb hlt
      exact hdisjoint hpa hpb
    · obtain ⟨p, hpb, hpa⟩ := hmeet b a ha (hreach hge)
      exact hdisjoint hpa hpb
  · -- a common word is at least as far into one of them as the blocks are apart
    intro hapart p hpa hpb
    obtain ⟨i, hi, rfl⟩ := mem_consumed.mp hpa
    obtain ⟨j, hj, heq⟩ := mem_consumed.mp hpb
    injection heq with _ hcounter hword
    unfold blockSize at hcounter hword
    unfold Apart blockSize at hapart
    rcases le_total (j / 16) (i / 16) with hle | hle
    · have hahead := ahead_le (t := t) hle hcounter
      omega
    · have hahead := ahead_le (t := t) hle hcounter.symm
      omega

/-- A kernel with one item for each element, all of which draw the same. -/
def Kernel.grid (size : Size) (draws : List (BitSpan 32)) : Kernel where
  size := size
  items := (List.range size.toNat).map fun i => ⟨BitVec.ofNat 64 i, draws⟩
  size_pos := by
    intro h
    by_contra hzero
    apply h
    rw [show size.toNat = 0 by omega]
    rfl

/-- Items of consecutive elements are apart exactly if none draws more than a block. -/
theorem spaced_grid_iff {size : Size} (hsize : size.toNat ≤ t.blockCount)
    (draws : List (BitSpan 32)) :
    (Kernel.grid size draws).Spaced t ↔
      size.toNat ≤ 1 ∨ (Item.mk 0 draws).words ≤ blockSize := by
  have hlt := size.isLt
  have htoNat {i : ℕ} (hi : i < size.toNat) : (BitVec.ofNat 64 i).toNat = i := by
    rw [BitVec.toNat_ofNat]
    exact Nat.mod_eq_of_lt (by omega)
  show ((List.range size.toNat).map _).Pairwise (Apart t) ↔ _
  rw [List.pairwise_map, List.pairwise_iff_getElem]
  constructor
  · -- the first two elements are one block apart
    intro hspaced
    by_contra hnot
    have hone : 1 < size.toNat := by omega
    have hwords : blockSize < (Item.mk 0 draws).words := by omega
    have hapart := hspaced 0 1 (by simp; omega) (by simp; omega) one_pos
    simp only [List.getElem_range] at hapart
    have hahead := ahead_le (t := t) (a := BitVec.ofNat 64 0) (b := BitVec.ofNat 64 1) (i := 1)
      (j := 0) (by omega) rfl
    unfold Apart Item.words at hapart
    unfold Item.words blockSize at hwords
    unfold blockSize at hapart
    dsimp only at hapart hwords
    omega
  · intro hfew i j hi hj hij
    rw [List.length_range] at hi hj
    simp only [List.getElem_range]
    have hwords : (Item.mk 0 draws).words ≤ blockSize := by omega
    have hpos {a b : ℕ} (ha : a < size.toNat) (hb : b < size.toNat) (hne : a ≠ b) :
        1 ≤ ahead t (BitVec.ofNat 64 a) (BitVec.ofNat 64 b) := by
      have hreach := add_ahead (t := t) (BitVec.ofNat 64 a) (BitVec.ofNat 64 b)
      have hnonneg := ahead_nonneg (t := t) (BitVec.ofNat 64 a) (BitVec.ofNat 64 b)
      by_contra hzero
      rw [show (ahead t (BitVec.ofNat 64 a) (BitVec.ofNat 64 b)).toNat = 0 by omega, Nat.add_zero,
        htoNat ha, htoNat hb, Nat.mod_eq_of_lt (by omega), Nat.mod_eq_of_lt (by omega)] at hreach
      exact hne hreach
    have hij' := hpos hi hj hij.ne
    have hji' := hpos hj hi hij.ne'
    unfold Item.words blockSize at hwords
    unfold Apart Item.words blockSize
    dsimp only at hwords ⊢
    omega

/-! ## Kernels of one queue -/

/-- The nonces of a queue count its elements. -/
theorem nonce_addCapabilityData (state : RandomState t) (size : Size) :
    value (addCapabilityData t state size).2.nonce =
      (value state.nonce + size.toNat) % (2 ^ 32) ^ t.nonceSize := by
  have hlen : state.nonce.length = (limbType 32 t.nonceSize).limbSize 32 := by
    rw [limbSize_limbType, state.nonce_size]
  have hadd := (Num.add_eq (w := 32) (t := limbType 32 t.nonceSize)
    (x := value state.nonce) (y := size.toNat) hlen
    (by rw [limbSize_limbType]; exact ownLimbs_reads _) ((sizeLimbSpan_denotes size).reads _ _)
    (MaybeConstant.constant 0)).1
  show value (Core.Num.add _ _ _ _ _).1 = _
  rw [hadd]
  have hvalue := value_image_limbType (w := 32) t.nonceSize
    ((value state.nonce : ℤ) + size.toNat + 0)
  zify
  rw [show ((MaybeConstant.constant 0 : MaybeConstant Bit).value.toNat : ℤ) = 0 from rfl, hvalue,
    Int.add_zero]

theorem nonce_of_mem_consumed {data : RandomState t} {item : Item} {p : Position}
    (h : p ∈ consumed t data item) : p.nonce = data.nonce := by
  obtain ⟨i, _, rfl⟩ := mem_consumed.mp h
  rfl

/-- The elements of a list of kernels. -/
def elements (kernels : List Kernel) : ℕ := (kernels.map fun kernel => kernel.size.toNat).sum

/-- While the nonce does not wrap, the nonces of later kernels are greater by the elements in
between. -/
theorem run_nonce {state : RandomState t} {kernels : List Kernel}
    (htotal : value state.nonce + elements kernels < (2 ^ 32) ^ t.nonceSize) :
    ∀ entry ∈ run t state kernels, value state.nonce ≤ value entry.1.nonce := by
  induction kernels generalizing state with
  | nil => simp [run]
  | cons kernel kernels ih =>
      intro entry hentry
      rw [run, List.mem_cons] at hentry
      have hsum : elements (kernel :: kernels) = kernel.size.toNat + elements kernels := rfl
      have hnonce := nonce_addCapabilityData state kernel.size
      rw [Nat.mod_eq_of_lt (by omega)] at hnonce
      rcases hentry with rfl | hentry
      · exact le_rfl
      · have hle := ih (by omega) entry hentry
        omega

theorem run_apart {state : RandomState t} {kernels : List Kernel}
    (htotal : value state.nonce + elements kernels < (2 ^ 32) ^ t.nonceSize) :
    (run t state kernels).Pairwise fun first second =>
      first.2.items ≠ [] → first.1.nonce ≠ second.1.nonce := by
  induction kernels generalizing state with
  | nil => exact List.Pairwise.nil
  | cons kernel kernels ih =>
      have hsum : elements (kernel :: kernels) = kernel.size.toNat + elements kernels := rfl
      have hnonce := nonce_addCapabilityData state kernel.size
      rw [Nat.mod_eq_of_lt (by omega)] at hnonce
      rw [run, List.pairwise_cons]
      refine ⟨?_, ih (by omega)⟩
      intro entry hentry hitems heq
      have hle := run_nonce (by omega) entry hentry
      have hsize := kernel.size_pos hitems
      have hsame : value (addCapabilityData t state kernel.size).1.nonce = value state.nonce := rfl
      rw [heq] at hsame
      omega

theorem run_kernels (state : RandomState t) (kernels : List Kernel) :
    (run t state kernels).map Prod.snd = kernels := by
  induction kernels generalizing state with
  | nil => rfl
  | cons kernel kernels ih =>
      rw [run, List.map_cons, ih]

/-- Items of one kernel may share a word, items of different kernels do not. -/
theorem keystreamDisjoint_iff {state : RandomState t} {kernels : List Kernel}
    (htotal : value state.nonce + elements kernels < (2 ^ 32) ^ t.nonceSize) :
    KeystreamDisjoint t state kernels ↔ ∀ kernel ∈ kernels, kernel.Spaced t := by
  have hkernel (entry : RandomState t × Kernel) :
      (entry.2.items.map (consumed t entry.1)).Pairwise List.Disjoint ↔ entry.2.Spaced t := by
    rw [List.pairwise_map]
    unfold Kernel.Spaced
    simp only [disjoint_consumed_iff]
  have hapart := run_apart htotal
  unfold KeystreamDisjoint
  rw [List.pairwise_flatMap]
  constructor
  · rintro ⟨hitems, -⟩ kernel hmem
    rw [← run_kernels state kernels] at hmem
    obtain ⟨entry, hentry, rfl⟩ := List.mem_map.mp hmem
    exact (hkernel entry).mp (hitems entry hentry)
  · intro hspaced
    constructor
    · intro entry hentry
      apply (hkernel entry).mpr
      apply hspaced
      rw [← run_kernels state kernels]
      exact List.mem_map_of_mem hentry
    -- different kernels use different nonces, so that no block of one is a block of the other
    · refine hapart.imp ?_
      intro first second hnonce _ ha _ hb p hpa hpb
      obtain ⟨a, hmem, rfl⟩ := List.mem_map.mp ha
      obtain ⟨b, -, rfl⟩ := List.mem_map.mp hb
      apply hnonce (List.ne_nil_of_mem hmem)
      rw [← nonce_of_mem_consumed hpa, ← nonce_of_mem_consumed hpb]

/-- From a new queue on, as long as it has not counted through all its nonces. -/
theorem keystream_disjoint_iff (key : List Word) (hkey : key.length = keySize)
    (kernels : List Kernel) (htotal : elements kernels < (2 ^ 32) ^ t.nonceSize) :
    KeystreamDisjoint t (RandomState.start t key hkey) kernels ↔
      ∀ kernel ∈ kernels, kernel.Spaced t := by
  apply keystreamDisjoint_iff
  have hzero : value (RandomState.start t key hkey).nonce = 0 := value_replicate_zero _
  omega

/-- A result of so many bits. -/
def bitsToFill (bitSize : ℕ) : BitSpan 32 :=
  ⟨⟨bitSize, .unsigned, .normal⟩, List.replicate (limbSizeFor 32 bitSize) 0⟩

theorem keystream_disjoint_iff_blocks :
    KeystreamDisjoint chacha20 (RandomState.start chacha20 (List.replicate 8 0) rfl)
      [Kernel.grid 2 [bitsToFill 512], Kernel.grid 3 [bitsToFill 100, bitsToFill 30]] ∧
    elements [Kernel.grid 2 [bitsToFill 512], Kernel.grid 3 [bitsToFill 100, bitsToFill 30]] = 5 :=
  ⟨(keystream_disjoint_iff (t := chacha20) (List.replicate 8 0) rfl _ (by decide)).mpr
    (by decide), by decide⟩

/-- Two elements of 544 bits: the last word of the first is the first word of the second. -/
theorem keystream_reused :
    (Kernel.grid 2 [bitsToFill 544]).size.toNat < 2 ^ 32 ∧
    elements [Kernel.grid 2 [bitsToFill 544]] < (2 ^ 32) ^ chacha20.nonceSize ∧
    ¬ KeystreamDisjoint chacha20 (RandomState.start chacha20 (List.replicate 8 0) rfl)
      [Kernel.grid 2 [bitsToFill 544]] := by
  refine ⟨by decide, by decide, ?_⟩
  have hnonce : value (RandomState.start chacha20 (List.replicate 8 0) rfl).nonce = 0 := rfl
  rw [keystreamDisjoint_iff (by rw [hnonce]; decide)]
  decide

end Hmpc.Comp
