/-
# Hmpc.Core.Convert -- limbs of one size from limbs of another

`convert` cuts every limb of the value into limbs of the result, or joins limbs of the value to one
of the result. All bits are copied, so that nothing depends on what the bits above the width hold.
The last of the wider limbs is always done apart, as the test for partial limbs compares the wrong
sizes. When limbs are cut, the loop for those before it takes the index of a write from a variable;
an index has to be a constant, so that only a value of a single limb can be cut: `converts_iff`.
-/
import Hmpc.Core.Write

namespace Hmpc.Core.Num

open Hmpc.Lib.Loops Hmpc.Lib.Limbs Hmpc.Lib.Digits SpanType

variable {v r : ℕ}

/-- A read of the value, or a write of the result. -/
inductive ConvertAccess (r : ℕ)
  | read (index : ℕ)
  | write (index : ℕ) (limb : BitVec r)

namespace ConvertAccess

def written : ConvertAccess r → Option (ℕ × BitVec r)
  | read _ => none
  | write index limb => some (index, limb)

def apply (t : SpanType) (limbs : List (BitVec r)) : ConvertAccess r → List (BitVec r)
  | read _ => limbs
  | write index limb => t.write index limb t.normalType limbs

end ConvertAccess

/-- The parts of a limb; it is shifted before every part but the first. -/
def writeParts (index : ℕ) : ℕ → BitVec v → List (ConvertAccess r)
  | 0, _ => []
  | count + 1, valueLimb =>
      .write index (valueLimb.setWidth r) :: writeParts (index + 1) count (valueLimb >>> r)

/-- Limb `i` of the value, cut into `count` limbs. -/
def cutLimb (value : BitSpan v) (limbRatio i count : ℕ) : List (ConvertAccess r) :=
  .read i :: writeParts (i * limbRatio) count (value.read i value.type.normalType)

/-- The first of `count` limbs, and the others shifted above it. -/
def joinedLimb (r : ℕ) (limb : ℕ → BitVec v) (count : ℕ) : BitVec r :=
  scanRange (count - 1)
    (fun j resultLimb => resultLimb ||| (limb (j + 1)).setWidth r <<< ((j + 1) * v))
    ((limb 0).setWidth r)

/-- `count` limbs of the value, joined to limb `i`. -/
def joinLimbs (value : BitSpan v) (limbRatio i count : ℕ) : List (ConvertAccess r) :=
  (List.range count).map (fun j => .read (i * limbRatio + j)) ++
    [.write i (joinedLimb r (fun j => value.read (i * limbRatio + j) value.type.normalType) count)]

/-- The accesses of `convert(result, value)` to a result of type `t`. -/
def convertAccesses (t : SpanType) (value : BitSpan v) : Option (List (ConvertAccess r)) :=
  let resultSize := t.limbSize r
  let valueSize := value.type.limbSize v
  if r < v then do
    guard (v % r = 0)
    let limbRatio := v / r
    let hasPartialLimbs := resultSize * limbRatio ≠ valueSize
    let fullLimbs := valueSize - if hasPartialLimbs then 1 else 0
    -- `size_constant_of<i * limb_ratio + j>` of a loop over `j` compiles for no full limb
    guard (fullLimbs = 0)
    if hasPartialLimbs then
      guard (fullLimbs * limbRatio < resultSize)
      return cutLimb value limbRatio fullLimbs (resultSize - fullLimbs * limbRatio)
    else return []
  else if v < r then do
    guard (r % v = 0)
    let limbRatio := r / v
    let hasPartialLimbs := valueSize * limbRatio ≠ resultSize
    let fullLimbs := resultSize - if hasPartialLimbs then 1 else 0
    let full := (List.range fullLimbs).flatMap fun i => joinLimbs value limbRatio i limbRatio
    if hasPartialLimbs then
      guard (fullLimbs * limbRatio < valueSize)
      return full ++ joinLimbs value limbRatio fullLimbs (valueSize - fullLimbs * limbRatio)
    else return full
  else do
    guard (resultSize = valueSize)
    return (List.range resultSize).flatMap fun i =>
      [.read i, .write i ((value.read i value.type.normalType).setWidth r)]

theorem length_apply (t : SpanType) (accesses : List (ConvertAccess r)) (limbs : List (BitVec r)) :
    (accesses.foldl (ConvertAccess.apply t) limbs).length = limbs.length := by
  induction accesses generalizing limbs with
  | nil => rfl
  | cons access rest ih =>
      rw [List.foldl_cons, ih]
      cases access with
      | read index => rfl
      | write index limb => exact t.length_write _ _ _ _

/-- `convert(result, value)`, for spans of one number of bits -/
def convert (result : BitArray r) (value : BitArray v) : Option (BitArray r) := do
  guard (result.type.bitSize = value.type.bitSize)
  let accesses ← convertAccesses result.type value.toBitSpan
  return ⟨⟨result.type, accesses.foldl (ConvertAccess.apply result.type) result.limbs⟩,
    (length_apply _ _ _).trans result.limb_size⟩

/-! ## Limbs that are cut and joined -/

theorem writeParts_eq (index count : ℕ) (limb : BitVec v) :
    (writeParts index count limb : List (ConvertAccess r)) =
      (List.range count).map fun j => .write (index + j) ((limb >>> (r * j)).setWidth r) := by
  induction count generalizing index limb with
  | zero => rfl
  | succ count ih =>
      rw [writeParts, ih, List.range_succ_eq_map, List.map_cons, List.map_map, Nat.mul_zero,
        BitVec.ushiftRight_zero]
      congr 1
      refine List.map_congr_left fun j _ => ?_
      rw [Function.comp_apply, Nat.mul_succ, Nat.add_comm (r * j), BitVec.shiftRight_add,
        Nat.succ_eq_add_one, Nat.add_right_comm, Nat.add_assoc]

theorem joinedLimb_eq (limb : ℕ → BitVec v) {n i q count : ℕ} (hcount : 0 < count) (hq : count ≤ q)
    (hlimb : ∀ j < q, limb j = digit v n (i * q + j))
    (hrest : ∀ j, count ≤ j → j < q → digit v n (i * q + j) = 0) :
    joinedLimb (v * q) limb count = digit (v * q) n i := by
  have hscan : ∀ b, (joinedLimb (v * q) limb count).getLsbD b =
      (decide (b < (count - 1 + 1) * v) && (digit (v * q) n i).getLsbD b) := by
    apply scanRange_induction (n := count - 1) (P := fun j (x : BitVec (v * q)) =>
      ∀ b, x.getLsbD b = (decide (b < (j + 1) * v) && (digit (v * q) n i).getLsbD b))
    · intro b
      have hplace := getLsbD_place (w := v) q n i 0 b
      rw [Nat.zero_mul, BitVec.shiftLeft_zero] at hplace
      rw [hlimb 0 (by omega), hplace]
      simp
    · intro j hj x hx b
      rw [hlimb (j + 1) (by omega), BitVec.getLsbD_or, hx, getLsbD_place,
        ← Bool.and_or_distrib_right]
      congr 1
      have hle : (j + 1) * v ≤ (j + 1 + 1) * v := Nat.mul_le_mul_right v (Nat.le_succ _)
      rw [← Bool.decide_or]
      congr 1
      exact propext (by omega)
  apply BitVec.eq_of_getLsbD_eq
  intro b hb
  rw [hscan, Nat.sub_add_cancel hcount]
  by_cases hlow : b < count * v
  · simp [hlow]
  · -- the bit is one of a digit that is zero
    have hv : 0 < v := Nat.pos_of_mul_pos_right (Nat.zero_lt_of_lt hb)
    have hj : b / v < q := (Nat.div_lt_iff_lt_mul hv).mpr (by rwa [Nat.mul_comm])
    have hzero := hrest (b / v) ((Nat.le_div_iff_mul_le hv).mpr (Nat.not_lt.mp hlow)) hj
    have hplace := getLsbD_place (w := v) q n i (b / v) b
    rw [hzero] at hplace
    have hhere : b / v * v ≤ b ∧ b < (b / v + 1) * v :=
      ⟨Nat.div_mul_le_self b v, by rw [Nat.add_one_mul]; exact Nat.lt_div_mul_add hv⟩
    simp [hhere] at hplace
    simp [hlow, hplace]

/-! ## Accesses -/

/-- How many limbs of `v` bits there are for those of `v * q` bits. -/
theorem limbSize_bounds [NeZero v] {q bits : ℕ} (hq : 0 < q) (hbits : 0 < bits) :
    let wide := limbSizeFor (v * q) bits
    let narrow := limbSizeFor v bits
    0 < wide ∧ (wide - 1) * q < narrow ∧ narrow ≤ wide * q := by
  have : NeZero (v * q) := ⟨Nat.mul_ne_zero (NeZero.ne v) hq.ne'⟩
  have hpos : 0 < limbSizeFor (v * q) bits := by
    rw [← Nat.not_le, limbSizeFor_le_iff]
    omega
  refine ⟨hpos, ?_, ?_⟩
  · -- one limb less does not hold all bits
    rw [← Nat.not_le, limbSizeFor_le_iff, Nat.mul_comm _ q, ← Nat.mul_assoc, ← limbSizeFor_le_iff]
    omega
  · rw [limbSizeFor_le_iff, Nat.mul_comm _ q, ← Nat.mul_assoc, ← limbSizeFor_le_iff]

/-- The test for partial limbs compares the smaller number of limbs with a multiple of the
larger. -/
theorem hasPartialLimbs [NeZero v] {q bits : ℕ} (hq : 1 < q) (hbits : 0 < bits) :
    limbSizeFor v bits * q ≠ limbSizeFor (v * q) bits := by
  obtain ⟨hpos, hlow, hhigh⟩ := limbSize_bounds (v := v) (Nat.zero_lt_of_lt hq) hbits
  have hle : limbSizeFor (v * q) bits ≤ limbSizeFor v bits := by
    have := Nat.mul_le_mul_left (limbSizeFor (v * q) bits - 1) hq.le
    omega
  have hmul := Nat.mul_le_mul_left (limbSizeFor v bits) hq
  omega

theorem written_apply (t : SpanType) (accesses : List (ConvertAccess r)) (limbs : List (BitVec r)) :
    accesses.foldl (ConvertAccess.apply t) limbs =
      (accesses.filterMap ConvertAccess.written).foldl
        (fun l p => t.write p.1 p.2 t.normalType l) limbs := by
  induction accesses generalizing limbs with
  | nil => rfl
  | cons access rest ih =>
      cases access with
      | read index => exact ih limbs
      | write index limb => exact ih _

/-- Writes of all digits of a number. -/
theorem foldl_digits (t : SpanType) (z : ℤ) {limbs : List (BitVec r)}
    (hlen : limbs.length = t.limbSize r) :
    ((List.range (t.limbSize r)).map fun i => (i, digit r z i)).foldl
      (fun l p => t.write p.1 p.2 t.normalType l) limbs = t.image r z := by
  have hfilled : ∀ n ≤ t.limbSize r, t.Filled limbs z n
      (((List.range n).map fun i => (i, digit r z i)).foldl
        (fun l p => t.write p.1 p.2 t.normalType l) limbs) := by
    intro n hn
    induction n with
    | zero => exact Filled.start t limbs z
    | succ n ih =>
        rw [List.range_succ, List.map_append, List.foldl_append]
        exact (ih (by omega)).step (hlen ▸ hn) rfl
  exact (hfilled _ le_rfl).done hlen

theorem written_writes {α : Type} (l : List α) (index : α → ℕ) (limb : α → BitVec r) :
    (l.map fun a => ConvertAccess.write (index a) (limb a)).filterMap ConvertAccess.written =
      l.map fun a => (index a, limb a) := by
  induction l with
  | nil => rfl
  | cons a l ih => exact congrArg (_ :: ·) ih

theorem written_reads {α : Type} (l : List α) (index : α → ℕ) :
    (l.map fun a => (ConvertAccess.read (index a) : ConvertAccess r)).filterMap
      ConvertAccess.written = [] := by
  induction l with
  | nil => rfl
  | cons a l ih => exact ih

/-- A limb that is cut is read, and its parts are digits of the whole value. -/
theorem cutLimb_spec {q : ℕ} (x : BitSpan (r * q)) (i : ℕ) {count : ℕ} (hcount : count ≤ q) :
    (∀ k, (ConvertAccess.read k : ConvertAccess r) ∈ cutLimb x q i count ↔ k = i) ∧
      (cutLimb x q i count).filterMap ConvertAccess.written =
        (List.range count).map fun j => (i * q + j, digit r (value x.limbs) (i * q + j)) := by
  rw [cutLimb, writeParts_eq, BitSpan.read_own, ← digit_value]
  constructor
  · intro k
    simp
  · show List.filterMap ConvertAccess.written (List.map _ _) = _
    rw [written_writes]
    refine List.map_congr_left fun j hj => ?_
    rw [digit_cut ((List.mem_range.mp hj).trans_le hcount)]

/-- Limbs that are joined are read, and written as a digit of the whole value. -/
theorem joinLimbs_spec {q : ℕ} (x : BitSpan v) (i : ℕ) {count : ℕ} (hcount : 0 < count)
    (hq : count ≤ q) (hrest : ∀ j, count ≤ j → j < q → digit v (value x.limbs) (i * q + j) = 0) :
    (∀ k, (ConvertAccess.read k : ConvertAccess (v * q)) ∈ joinLimbs x q i count ↔
        ∃ j < count, i * q + j = k) ∧
      (joinLimbs x q i count).filterMap ConvertAccess.written =
        [(i, digit (v * q) (value x.limbs) i)] := by
  have hjoined : joinedLimb (v * q) (fun j => x.read (i * q + j) x.type.normalType) count =
      digit (v * q) (value x.limbs) i := by
    refine joinedLimb_eq _ hcount hq (fun j _ => ?_) hrest
    rw [BitSpan.read_own, digit_value]
  rw [joinLimbs, hjoined]
  constructor
  · intro k
    simp
  · rw [List.filterMap_append, written_reads]
    rfl

/-! ## What is converted -/

/-- What `convert` has done for a value of `size` limbs, when it has written the digits of a number:
it has read limbs of the value only, and has written each limb of the result once. -/
structure Copies (r size count : ℕ) (z : ℤ) (accesses : List (ConvertAccess r)) : Prop where
  reads : ∀ i, .read i ∈ accesses → i < size
  writes : accesses.filterMap ConvertAccess.written =
    (List.range count).map fun i => (i, digit r z i)

theorem Copies.foldl_eq {t : SpanType} {size : ℕ} {z : ℤ} {accesses : List (ConvertAccess r)}
    (h : Copies r size (t.limbSize r) z accesses) {limbs : List (BitVec r)}
    (hlen : limbs.length = t.limbSize r) :
    accesses.foldl (ConvertAccess.apply t) limbs = t.image r z := by
  rw [written_apply, h.writes, foldl_digits t z hlen]

theorem dvd_of_lt {a b : ℕ} [NeZero a] (hdvd : a ∣ b ∨ b ∣ a) (h : a < b) : a ∣ b :=
  hdvd.resolve_right fun hba => Nat.not_le.mpr h (Nat.le_of_dvd (NeZero.pos a) hba)

section

variable [NeZero v] [NeZero r] {t : SpanType} {x : BitArray v}
  (hbits : t.bitSize = x.type.bitSize) (hpos : 0 < x.type.bitSize)
include hbits hpos

/-- A value of several limbs is not cut. -/
theorem convertAccesses_none (hr : r < v) (hdvd : r ∣ v) (h : v < x.type.bitSize) :
    (convertAccesses t x.toBitSpan : Option (List (ConvertAccess r))) = none := by
  obtain ⟨q, rfl⟩ := hdvd
  have hq : 1 < q := by nlinarith
  have hpartial := hasPartialLimbs (v := r) hq hpos
  have hsize : 1 < limbSizeFor (r * q) x.type.bitSize := by
    rw [← Nat.not_le, limbSizeFor_le_iff]
    omega
  have hfull : limbSizeFor (r * q) x.type.bitSize - 1 ≠ 0 := by omega
  unfold convertAccesses SpanType.limbSize
  dsimp only
  rw [if_pos hr, Nat.mul_div_cancel_left q (NeZero.pos r), hbits, if_pos hpartial]
  simp [guard, hfull]

/-- A value of one limb is cut into the limbs of the result. -/
theorem convertAccesses_cut (hr : r < v) (hdvd : r ∣ v) (h : x.type.bitSize ≤ v) :
    ∃ accesses, convertAccesses t x.toBitSpan = some accesses ∧
      Copies r (x.type.limbSize v) (t.limbSize r) (value x.limbs) accesses := by
  obtain ⟨q, rfl⟩ := hdvd
  have hq : 1 < q := by nlinarith
  have hpartial := hasPartialLimbs (v := r) hq hpos
  obtain ⟨hone, -, hle⟩ := limbSize_bounds (v := r) (Nat.zero_lt_of_lt hq) hpos
  have hsize : limbSizeFor (r * q) x.type.bitSize = 1 := by
    have hsize := (limbSizeFor_le_iff (w := r * q) x.type.bitSize 1).mpr (by omega)
    omega
  rw [hsize, Nat.one_mul, ← hbits] at hle
  obtain ⟨hreads, hwrites⟩ := cutLimb_spec x.toBitSpan 0 hle
  refine ⟨cutLimb x.toBitSpan q 0 (t.limbSize r), ?_, fun i hi => ?_, ?_⟩
  · have hsome : 0 < limbSizeFor r x.type.bitSize := by
      rw [← Nat.not_le, limbSizeFor_le_iff]
      omega
    rw [hsize] at hpartial
    unfold convertAccesses SpanType.limbSize
    dsimp only
    rw [if_pos hr, Nat.mul_div_cancel_left q (NeZero.pos r), hbits, hsize, if_pos hpartial]
    simp [guard, hpartial, hsome]
  · rw [(hreads i).mp hi, SpanType.limbSize, hsize]
    exact one_pos
  · simpa [SpanType.limbSize] using hwrites

/-- The limbs of a value are joined; the last ones may be fewer. -/
theorem convertAccesses_join (hv : v < r) (hdvd : v ∣ r) :
    ∃ accesses, convertAccesses t x.toBitSpan = some accesses ∧
      Copies r (x.type.limbSize v) (t.limbSize r) (value x.limbs) accesses := by
  obtain ⟨q, rfl⟩ := hdvd
  have hq : 1 < q := by nlinarith
  have hpartial := hasPartialLimbs (v := v) hq hpos
  obtain ⟨hone, hlow, hhigh⟩ := limbSize_bounds (v := v) (Nat.zero_lt_of_lt hq) hpos
  obtain ⟨last, hsize⟩ : ∃ last, limbSizeFor (v * q) x.type.bitSize = last + 1 :=
    ⟨_, (Nat.sub_add_cancel hone).symm⟩
  rw [hsize] at hpartial
  rw [hsize, Nat.add_sub_cancel] at hlow
  rw [hsize, Nat.add_one_mul] at hhigh
  have hfull (i : ℕ) := joinLimbs_spec x.toBitSpan i (Nat.zero_lt_of_lt hq) le_rfl
    (fun j hj hlt => absurd hlt (Nat.not_lt.mpr hj))
  -- above the limbs of the value there are zeros
  have hzero (j : ℕ) (hj : limbSizeFor v x.type.bitSize - last * q ≤ j) :
      digit v (value x.limbs) (last * q + j) = 0 := by
    rw [digit_value, List.getD_eq_getElem?_getD, List.getElem?_eq_none]
    · rfl
    · rw [x.limb_size]
      show limbSizeFor v x.type.bitSize ≤ _
      omega
  have hpart : 0 < limbSizeFor v x.type.bitSize - last * q := by omega
  have hlast := joinLimbs_spec (q := q) x.toBitSpan last hpart (by omega) fun j hj _ => hzero j hj
  refine ⟨(List.range last).flatMap (fun i => joinLimbs x.toBitSpan q i q) ++
    joinLimbs x.toBitSpan q last (limbSizeFor v x.type.bitSize - last * q), ?_, fun k hk => ?_, ?_⟩
  · unfold convertAccesses SpanType.limbSize
    dsimp only
    rw [if_neg (Nat.not_lt.mpr hv.le), if_pos hv, Nat.mul_div_cancel_left q (NeZero.pos v), hbits,
      hsize, if_pos hpartial]
    simp [guard, hpartial, hlow]
  · show k < limbSizeFor v x.type.bitSize
    rcases List.mem_append.mp hk with hk | hk
    · obtain ⟨i, hi, hk⟩ := List.mem_flatMap.mp hk
      obtain ⟨j, hj, rfl⟩ := ((hfull i).1 k).mp hk
      have hle : (i + 1) * q ≤ last * q := Nat.mul_le_mul_right q (List.mem_range.mp hi)
      rw [Nat.add_one_mul] at hle
      omega
    · obtain ⟨j, hj, rfl⟩ := (hlast.1 k).mp hk
      omega
  · rw [List.filterMap_append, List.filterMap_flatMap, hlast.2, SpanType.limbSize, hbits, hsize,
      List.range_succ, List.map_append]
    simp only [(hfull _).2]
    exact congrArg (· ++ _) List.map_eq_flatMap.symm

omit [NeZero v] hpos in
/-- Limbs of one size are copied. -/
theorem convertAccesses_same (hv : v = r) :
    ∃ accesses, convertAccesses t x.toBitSpan = some accesses ∧
      Copies r (x.type.limbSize v) (t.limbSize r) (value x.limbs) accesses := by
  subst hv
  refine ⟨(List.range (t.limbSize v)).flatMap fun i =>
    [.read i, .write i ((x.read i x.type.normalType).setWidth v)], ?_, fun k hk => ?_, ?_⟩
  · unfold convertAccesses SpanType.limbSize
    dsimp only
    rw [if_neg (lt_irrefl v), if_neg (lt_irrefl v), hbits]
    simp [guard]
  · have hlt : k < t.limbSize v := by simpa using hk
    rwa [SpanType.limbSize, hbits] at hlt
  · rw [List.filterMap_flatMap]
    simp only [BitSpan.read_own, ← digit_value, BitVec.setWidth_eq]
    exact List.map_eq_flatMap.symm

/-- Without a loop that does not compile. -/
theorem exists_convertAccesses (hdvd : r ∣ v ∨ v ∣ r) (h : v ≤ r ∨ x.type.bitSize ≤ v) :
    ∃ accesses, convertAccesses t x.toBitSpan = some accesses ∧
      Copies r (x.type.limbSize v) (t.limbSize r) (value x.limbs) accesses := by
  rcases Nat.lt_trichotomy v r with hlt | heq | hlt
  · exact convertAccesses_join hbits hpos hlt (dvd_of_lt hdvd.symm hlt)
  · exact convertAccesses_same hbits heq
  · exact convertAccesses_cut hbits hpos hlt (dvd_of_lt hdvd hlt)
      (h.resolve_left (Nat.not_le.mpr hlt))

/-- What is left in the result. -/
theorem convert_eq (hdvd : r ∣ v ∨ v ∣ r) (h : v ≤ r ∨ x.type.bitSize ≤ v) {result : BitArray r}
    (hresult : result.type = t) : convert result x = some (t.array r (value x.limbs)) := by
  obtain ⟨accesses, haccesses, hcopies⟩ := exists_convertAccesses hbits hpos hdvd h
  subst hresult
  have hconvert : convert result x = some
      ⟨⟨result.type, accesses.foldl (ConvertAccess.apply result.type) result.limbs⟩,
        (length_apply _ _ _).trans result.limb_size⟩ := by
    simp [convert, guard, hbits, haccesses]
  exact hconvert.trans (congrArg some (eq_array _ _ (hcopies.foldl_eq result.limb_size)))

theorem convert_none (hdvd : r ∣ v ∨ v ∣ r) (h : ¬(v ≤ r ∨ x.type.bitSize ≤ v))
    {result : BitArray r} (hresult : result.type = t) : convert result x = none := by
  obtain ⟨hlt, hmany⟩ := not_or.mp h
  subst hresult
  rw [convert, convertAccesses_none hbits hpos (Nat.not_le.mp hlt)
    (dvd_of_lt hdvd (Nat.not_le.mp hlt)) (Nat.not_le.mp hmany)]
  simp [guard, hbits]

omit [NeZero v] hpos in
/-- The result has the bits of the value. -/
theorem value_convert : value (t.array r (value x.limbs)).limbs ≡ value x.limbs
    [MOD 2 ^ x.type.bitSize] := by
  have hmod := t.value_image_mod (w := r) (value x.limbs)
  rw [hbits] at hmod
  exact_mod_cast hmod

end

section

variable [NeZero v] [NeZero r] (t : SpanType) (x : BitArray v)

/-- Every limb of the result is written once and no limb beyond is touched, and the result has the
bits of the value, whatever it held before. -/
def Converts (r : ℕ) : Prop :=
  (∃ accesses : List (ConvertAccess r), convertAccesses t x.toBitSpan = some accesses ∧
    (∀ i, .read i ∈ accesses → i < x.type.limbSize v) ∧
    (accesses.filterMap ConvertAccess.written).map Prod.fst = List.range (t.limbSize r)) ∧
  ∀ result : BitArray r, result.type = t → ∃ after, convert result x = some after ∧
    after.type = t ∧ value after.limbs ≡ value x.limbs [MOD 2 ^ x.type.bitSize]

/-- The value that is converted, and then converted to limbs of its own size again. -/
def ReturnsBack (r : ℕ) : Prop :=
  ∀ result : BitArray r, result.type = t → ∀ back : BitArray v, back.type = x.type →
    ∃ after, (convert result x).bind (convert back) = some after ∧
      value after.limbs ≡ value x.limbs [MOD 2 ^ x.type.bitSize]

variable {t x}

/-- **Conversion of limb sizes**, exactly when limbs that are cut are the only one of their value.
One of the two ways of a conversion and back cuts the wider limbs. -/
theorem converts_iff {r : ℕ} [NeZero r] (hdvd : r ∣ v ∨ v ∣ r) (hbits : t.bitSize = x.type.bitSize)
    (hpos : 0 < x.type.bitSize) :
    (Converts t x r ↔ v ≤ r ∨ x.type.bitSize ≤ v) ∧
      (ReturnsBack t x r ↔ v = r ∨ x.type.bitSize ≤ max v r) := by
  constructor
  · constructor
    · rintro ⟨-, hconverts⟩
      by_contra hcon
      obtain ⟨after, hafter, -⟩ := hconverts (t.array r 0) rfl
      rw [convert_none hbits hpos hdvd hcon rfl] at hafter
      cases hafter
    · intro h
      obtain ⟨accesses, haccesses, hcopies⟩ := exists_convertAccesses hbits hpos hdvd h
      refine ⟨⟨accesses, haccesses, hcopies.reads, ?_⟩, fun result hresult =>
        ⟨_, convert_eq hbits hpos hdvd h hresult, rfl, value_convert hbits⟩⟩
      rw [hcopies.writes, List.map_map]
      exact List.map_id _
  · have hpos' : 0 < t.bitSize := hbits ▸ hpos
    constructor
    · intro hreturns
      obtain ⟨after, hafter, -⟩ := hreturns (t.array r 0) rfl (x.type.array v 0) rfl
      by_cases h : v ≤ r ∨ x.type.bitSize ≤ v
      · rw [convert_eq hbits hpos hdvd h rfl, Option.bind_some] at hafter
        by_contra hcon
        have hcut : ¬(r ≤ v ∨ (t.array r (value x.limbs)).type.bitSize ≤ r) := fun h' => hcon (by
          rw [show (t.array r (value x.limbs)).type.bitSize = _ from hbits] at h'
          omega)
        have hback : convert (x.type.array v 0) (t.array r (value x.limbs)) = none :=
          convert_none hbits.symm hpos' hdvd.symm hcut rfl
        rw [hback] at hafter
        cases hafter
      · rw [convert_none hbits hpos hdvd h rfl] at hafter
        cases hafter
    · intro h result hresult back hback
      have hagain := convert_eq (x := t.array r (value x.limbs)) hbits.symm hpos' hdvd.symm
        (by
          show r ≤ v ∨ t.bitSize ≤ r
          omega) hback
      rw [convert_eq hbits hpos hdvd (by omega) hresult, Option.bind_some, hagain]
      refine ⟨_, rfl, ?_⟩
      have hthere := value_convert (r := r) (x := x) hbits
      have hhere := value_convert (r := v) (x := t.array r (value x.limbs)) hbits.symm
      rw [show (t.array r (value x.limbs)).type.bitSize = _ from hbits] at hhere
      exact hhere.trans hthere

end

/-- Ten bits, as limbs of 16 bits and of 8. -/
theorem converts_bytes :
    let ten : SpanType := ⟨10, .unsigned, .unnormal⟩
    Converts ten (ten.array 16 1000) 8 ∧ ReturnsBack ten (ten.array 16 1000) 8 := by
  intro ten
  obtain ⟨hthere, hback⟩ := converts_iff (t := ten) (x := ten.array 16 1000) (r := 8)
    (.inl ⟨2, rfl⟩) rfl (by decide)
  exact ⟨hthere.mpr (.inr (by decide)), hback.mpr (.inr (by decide))⟩

/-- Two limbs of 32 bits are not converted to limbs of 16 bits. -/
theorem not_converts_words :
    let long : SpanType := ⟨64, .unsigned, .unnormal⟩
    ¬Converts long (long.array 32 (2 ^ 40 + 1)) 16 := by
  rintro long ⟨-, hconverts⟩
  obtain ⟨after, hafter, -⟩ := hconverts (long.array 16 0) rfl
  rw [convert_none (t := long) rfl (by decide) (.inl ⟨2, rfl⟩) (by decide) rfl] at hafter
  cases hafter

end Hmpc.Core.Num
